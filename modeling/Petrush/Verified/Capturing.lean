import Petrush.Mid.Capture

/-!
# What a command substitution captures

However the pipe delivers what the child writes, the buffer holds the first
`PETRUSH_CMDSUBST_MAX_BYTES` bytes of it, and no write is outside.  What is beyond these is
drained, but only up to the first signal: the capture loop tries again after `EINTR`, the
drain does not.

## Main results

* `captureTurn_good`, `captureLoop_good`: a turn, and the whole loop, on any buffer that
  grows.
* `drainLoop_iff`: when the drain meets the end of the file.
* `captured_iff`: the substitution.
-/

namespace Petrush.Verified.Capturing

open Petrush.Lib.CText
open Petrush.Lib.Cells
open Petrush.Lib.Reads
open Petrush.Mid.Capture
open Petrush.Mid.Dispatcher (cmdsubstMaxDepth)

/-! ## The capture loop -/

/-- The buffer holds the bytes read so far, and there is a cell behind them. -/
structure Holds (stream : Text) (c : Buffer) : Prop where
  low : 4096 ≤ c.buf.length
  high : c.buf.length ≤ maxBytes + 1
  room : c.len < c.buf.length
  within : c.len ≤ stream.length
  held : c.buf.take c.len = stream.take c.len
  rest : c.pipe.rest = stream.drop c.len

section Turns

variable (alloc : Nat → Bool) (junk : Char)

/-- What a turn may do. -/
def Good (stream : Text) : Turned → Prop
  | .stop c => Holds stream c ∧ c.len = min stream.length maxBytes
  | .fail _ => ∃ n, alloc n = false
  | .again c => Holds stream c

/-- The read of a turn, with room in the buffer. -/
theorem captureRead_good {stream : Text} {c : Buffer} (h : Holds stream c) (hmax : c.len < maxBytes)
    (hroom : c.len + 1 < c.buf.length) : ∃ t, captureRead c = .ok t ∧ Good alloc stream t := by
  have hwant : 0 < want c ∧ c.len + want c < c.buf.length ∧ c.len + want c ≤ maxBytes := by
    simp only [want]
    split <;> omega
  rw [captureRead, if_neg (by omega)]
  cases hread : c.pipe.read (want c) with
  | mk got pipe =>
      cases got with
      | none =>
          refine ⟨_, rfl, ?_⟩
          have hrest := (Source.read_interrupted hread).1
          exact { h with rest := hrest.trans h.rest }
      | some chunk =>
          obtain ⟨happend, hlen, hend, -⟩ := Source.read_some hread
          rw [h.rest] at happend hend
          cases chunk with
          | nil =>
              refine ⟨_, rfl, { h with rest := happend.symm }, ?_⟩
              have hnil := List.drop_eq_nil_iff.mp (hend hwant.1 rfl)
              have hwithin := h.within
              show c.len = _
              omega
          | cons b bs =>
              have hfits : c.len + (b :: bs).length ≤ c.buf.length := by omega
              simp only [writes_at hfits, Except.map]
              refine ⟨_, rfl, ?_⟩
              have hbefore : (c.buf.take c.len).length = c.len := by
                rw [List.length_take]
                omega
              have hstream : stream = stream.take c.len ++ ((b :: bs) ++ pipe.rest) := by
                rw [← happend, List.take_append_drop]
              have htaken : (stream.take c.len).length = c.len := by
                rw [List.length_take]
                have hwithin := h.within
                omega
              have hsize : (c.buf.take c.len ++ (b :: bs) ++
                  c.buf.drop (c.len + (b :: bs).length)).length = c.buf.length := by
                simp only [List.length_append, hbefore, List.length_drop]
                omega
              constructor
              · exact hsize.symm ▸ h.low
              · exact hsize.symm ▸ h.high
              · dsimp only
                omega
              · show c.len + (b :: bs).length ≤ _
                have hall := congrArg List.length hstream
                rw [List.length_append, htaken, List.length_append] at hall
                omega
              · show List.take (c.len + (b :: bs).length) _ = List.take (c.len + (b :: bs).length) _
                conv_rhs => rw [hstream, ← List.append_assoc]
                rw [List.take_left' (by rw [List.length_append, hbefore]),
                  List.take_left' (by rw [List.length_append, htaken]), h.held]
              · show pipe.rest = List.drop (c.len + (b :: bs).length) _
                rw [← List.drop_drop, happend, List.drop_left]

/-- The buffer grows before it is full. -/
theorem newCap_grows {len cap : Nat} (hfull : len + 1 ≥ cap) (hmax : len < maxBytes)
    (hroom : len < cap) : cap < newCap len cap ∧ newCap len cap ≤ maxBytes + 1 ∧
      len + 1 < newCap len cap := by
  simp only [newCap]
  split_ifs <;> omega

/-- **One turn** keeps what the buffer holds, and only stops when there is no more to
come or no more to hold. -/
theorem captureTurn_good {stream : Text} {c : Buffer} (h : Holds stream c) :
    ∃ t, captureTurn alloc junk c = .ok t ∧ Good alloc stream t := by
  rw [captureTurn]
  by_cases hmax : c.len ≥ maxBytes
  · rw [if_pos hmax]
    refine ⟨_, rfl, h, ?_⟩
    have hwithin := h.within
    have hroom := h.room
    have hhigh := h.high
    omega
  · rw [if_neg hmax]
    by_cases hfull : c.len + 1 ≥ c.buf.length
    · obtain ⟨hgrow, hcap, hfits⟩ := newCap_grows hfull (by omega) h.room
      rw [if_pos hfull, if_neg (by omega)]
      by_cases halloc : alloc (newCap c.len c.buf.length) = true
      · rw [if_pos halloc]
        have hlen := length_realloc junk (newCap c.len c.buf.length) c.buf
        have hgrown : Holds stream
            { c with buf := realloc junk (newCap c.len c.buf.length) c.buf } := by
          refine ⟨?_, ?_, ?_, h.within, ?_, h.rest⟩
          · have hlow := h.low
            dsimp only
            omega
          · dsimp only
            omega
          · dsimp only
            omega
          · show List.take c.len _ = _
            rw [realloc_grow junk (Nat.le_of_lt hgrow),
              List.take_append_of_le_length (Nat.le_of_lt h.room), h.held]
        apply captureRead_good alloc hgrown
        · dsimp only
          omega
        · dsimp only
          omega
      · rw [if_neg halloc]
        exact ⟨_, rfl, _, Bool.eq_false_iff.mpr halloc⟩
    · rw [if_neg hfull]
      exact captureRead_good alloc h (by omega) (by omega)

theorem captureLoop_stop {c c' : Buffer} (h : captureTurn alloc junk c = .ok (.stop c')) :
    captureLoop alloc junk c = .ok (c', false) := by
  rw [captureLoop]
  split <;> simp_all

theorem captureLoop_fail {c c' : Buffer} (h : captureTurn alloc junk c = .ok (.fail c')) :
    captureLoop alloc junk c = .ok (c', true) := by
  rw [captureLoop]
  split <;> simp_all

theorem captureLoop_again {c c' : Buffer} (h : captureTurn alloc junk c = .ok (.again c')) :
    captureLoop alloc junk c = captureLoop alloc junk c' := by
  rw [captureLoop]
  split <;> simp_all

/-- **The whole loop**, however many turns it takes. -/
theorem captureLoop_good {stream : Text} (n : Nat) : ∀ {c : Buffer}, c.pipe.size ≤ n →
    Holds stream c → ∃ c' failed, captureLoop alloc junk c = .ok (c', failed) ∧
      if failed then ∃ m, alloc m = false
      else Holds stream c' ∧ c'.len = min stream.length maxBytes := by
  induction n using Nat.strong_induction_on with
  | h n ih =>
      intro c hsize h
      obtain ⟨t, ht, hgood⟩ := captureTurn_good alloc junk h
      cases t with
      | stop c' => exact ⟨c', false, captureLoop_stop alloc junk ht, hgood⟩
      | fail c' => exact ⟨c', true, captureLoop_fail alloc junk ht, hgood⟩
      | again c' =>
          have hlt := captureTurn_again alloc junk ht
          rw [captureLoop_again alloc junk ht]
          exact ih c'.pipe.size (by omega) (Nat.le_refl _) hgood

end Turns

/-! ## The drain -/

/-- What the reads of the drain deliver before a signal comes, and whether one comes. -/
def delivered : List Turn → Nat
  | [] => 0
  | .interrupted :: _ => 0
  | .ready more :: turns => min 256 (more + 1) + delivered turns

/-- No signal comes while bytes are left to be drained. -/
def Undisturbed (bytes : Nat) (turns : List Turn) : Prop :=
  .interrupted ∈ turns → bytes ≤ delivered turns

theorem drainLoop_more {p p' : Source Char} {b : Char} {bs : Text}
    (h : p.read 256 = (some (b :: bs), p')) : drainLoop p = drainLoop p' := by
  rw [drainLoop]
  split <;> simp_all

theorem drainLoop_end {p p' : Source Char} (h : p.read 256 = (some [], p')) : drainLoop p = p' := by
  rw [drainLoop]
  split <;> simp_all

theorem drainLoop_interrupted {p p' : Source Char} (h : p.read 256 = (none, p')) :
    drainLoop p = p' := by
  rw [drainLoop]
  split <;> simp_all

/-- **The drain** takes everything exactly when no signal comes before. -/
theorem drainLoop_iff (n : Nat) : ∀ {rest : Text} {turns : List Turn},
    (⟨rest, turns⟩ : Source Char).size ≤ n →
      ((drainLoop ⟨rest, turns⟩).rest = [] ↔ Undisturbed rest.length turns) := by
  induction n using Nat.strong_induction_on with
  | h n ih =>
      intro rest turns hsize
      cases turns with
      | nil =>
          cases rest with
          | nil =>
              have hread : (⟨[], []⟩ : Source Char).read 256 = (some [], ⟨[], []⟩) := rfl
              rw [drainLoop_end hread]
              simp [Undisturbed]
          | cons c cs =>
              have hread : (⟨c :: cs, []⟩ : Source Char).read 256 =
                  (some (c :: cs.take 255), ⟨cs.drop 255, []⟩) := rfl
              rw [drainLoop_more hread,
                ih (⟨cs.drop 255, []⟩ : Source Char).size _ (Nat.le_refl _)]
              · simp [Undisturbed]
              · simp only [Source.size, List.length_drop, List.length_cons] at hsize ⊢
                omega
      | cons turn turns =>
          cases turn with
          | interrupted =>
              have hread : (⟨rest, .interrupted :: turns⟩ : Source Char).read 256 =
                  (none, ⟨rest, turns⟩) := rfl
              rw [drainLoop_interrupted hread]
              simp [Undisturbed, delivered]
          | ready more =>
              have hdisturbed (bytes : Nat) :
                  Undisturbed (bytes - min 256 (more + 1)) turns ↔
                    Undisturbed bytes (.ready more :: turns) := by
                simp only [Undisturbed, delivered, List.mem_cons, reduceCtorEq, false_or]
                exact imp_congr_right fun _ => by omega
              cases rest with
              | nil =>
                  have hread : (⟨[], .ready more :: turns⟩ : Source Char).read 256 =
                      (some [], ⟨[], turns⟩) := by simp [Source.read]
                  rw [drainLoop_end hread]
                  simp [Undisturbed]
              | cons c cs =>
                  have hmin : min 256 (more + 1) = min 255 more + 1 := by omega
                  have hread : (⟨c :: cs, .ready more :: turns⟩ : Source Char).read 256 =
                      (some (c :: cs.take (min 255 more)), ⟨cs.drop (min 255 more), turns⟩) := by
                    simp only [Source.read, hmin]
                    rfl
                  rw [drainLoop_more hread,
                    ih (⟨cs.drop (min 255 more), turns⟩ : Source Char).size _ (Nat.le_refl _),
                    ← hdisturbed, hmin, List.length_drop, List.length_cons, Nat.add_sub_add_right]
                  simp only [Source.size, List.length_drop, List.length_cons] at hsize ⊢
                  omega

/-! ## The substitution -/

/-- What a substitution should give: the text with a NUL behind it, the pipe at the end of
the file, and the depth as it was. -/
structure Captured (depth : Nat) (stream : Text) (r : Ran) : Prop where
  text : ∃ buf, r.buf = some buf ∧
    buf.take (min stream.length maxBytes + 1) = stream.take maxBytes ++ [nul]
  drained : r.left = []
  depth : r.depth = depth

/-- Nothing is refused. -/
structure Granted (g : Grants) : Prop where
  pipe : g.pipe = true
  fork : g.fork = true
  alloc : ∀ n, g.alloc n = true

section Substitution

variable (g : Grants) (junk : Char)

/-- The empty buffer. -/
theorem holds_start (stream : Text) (turns : List Turn) :
    Holds stream ⟨List.replicate 4096 junk, 0, ⟨stream, turns⟩⟩ where
  low := Nat.le_of_eq List.length_replicate.symm
  high := by
    rw [List.length_replicate, maxBytes]
    omega
  room := by
    rw [List.length_replicate]
    exact Nat.succ_pos _
  within := Nat.zero_le _
  held := rfl
  rest := rfl

/-- The NUL has its cell. -/
theorem write_nul {stream : Text} {c : Buffer} (h : Holds stream c) :
    ∃ buf, write c.buf c.len nul = .ok buf ∧ buf.take (c.len + 1) = stream.take c.len ++ [nul] := by
  have hfits : c.len + [nul].length ≤ c.buf.length := h.room
  have hbefore : (c.buf.take c.len).length = c.len := by
    rw [List.length_take]
    have hroom := h.room
    omega
  refine ⟨c.buf.set c.len nul, by rw [write, if_pos h.room], ?_⟩
  rw [List.take_add_one, List.take_set_of_le (Nat.le_refl _), h.held]
  simp [h.room]

/-- **On every path** the depth is what it was, and no access is outside. -/
theorem petrushRunCmdsubst_depth (depth : Nat) (stream : Text) (turns drains : List Turn) :
    ∃ r, petrushRunCmdsubst g junk depth stream turns drains = .ok r ∧ r.depth = depth := by
  obtain ⟨c, failed, hloop, hgood⟩ :=
    captureLoop_good g.alloc junk _ (Nat.le_refl _) (holds_start junk stream turns)
  simp only [petrushRunCmdsubst]
  split_ifs
  · exact ⟨_, rfl, rfl⟩
  · exact ⟨_, rfl, rfl⟩
  · exact ⟨_, rfl, rfl⟩
  · exact ⟨_, rfl, rfl⟩
  · rw [hloop]
    cases failed with
    | true => exact ⟨_, rfl, rfl⟩
    | false =>
        obtain ⟨buf, hwrite, -⟩ := write_nul hgood.1
        refine ⟨⟨some buf, depth, leftOver drains c⟩, ?_, rfl⟩
        simp [finishCapture, Except.bind, Except.map, hwrite]

/-- With everything granted, the capture loop comes to its end and the text is there. -/
theorem petrushRunCmdsubst_granted (hg : Granted g) {depth : Nat} (hdepth : depth < cmdsubstMaxDepth)
    (stream : Text) (turns drains : List Turn) :
    ∃ buf, buf.take (min stream.length maxBytes + 1) = stream.take maxBytes ++ [nul] ∧
      petrushRunCmdsubst g junk depth stream turns drains =
        .ok ⟨some buf, depth, if maxBytes ≤ stream.length
          then (drainLoop ⟨stream.drop maxBytes, drains⟩).rest else []⟩ := by
  obtain ⟨c, failed, hloop, hgood⟩ :=
    captureLoop_good g.alloc junk _ (Nat.le_refl _) (holds_start junk stream turns)
  cases failed with
  | true =>
      obtain ⟨m, hm⟩ := hgood
      rw [hg.alloc m] at hm
      contradiction
  | false =>
      obtain ⟨hholds, hlen⟩ := hgood
      obtain ⟨buf, hwrite, htake⟩ := write_nul hholds
      have hdeep : ¬ depth ≥ cmdsubstMaxDepth := by omega
      have htext : stream.take c.len = stream.take maxBytes := by
        rw [hlen]
        by_cases hle : maxBytes ≤ stream.length
        · rw [Nat.min_eq_right hle]
        · rw [Nat.min_eq_left (by omega), List.take_length, List.take_of_length_le (by omega)]
      have hleft : leftOver drains c = if maxBytes ≤ stream.length
          then (drainLoop ⟨stream.drop maxBytes, drains⟩).rest else [] := by
        rw [leftOver, hholds.rest]
        by_cases hle : maxBytes ≤ stream.length
        · have hfull : c.len = maxBytes := by omega
          rw [if_pos hle, if_pos (by omega), hfull]
        · have hwhole : c.len = stream.length := by omega
          rw [if_neg hle, if_neg (by omega), hwhole, List.drop_length]
      refine ⟨buf, by rw [← hlen, htake, htext], ?_⟩
      simp only [petrushRunCmdsubst, if_neg hdeep, hg.pipe, hg.fork, hg.alloc, Bool.not_true,
        Bool.false_eq_true, if_false, hloop, Except.bind, finishCapture, hwrite, Except.map, hleft,
        Nat.add_sub_cancel]

/-- **The capture of a command substitution**: on every path the depth is what it was and
no access is outside; and when nothing is refused, the substitution gives what it should,
whatever the pipe delivers at a time and whatever interrupts the capture, exactly when no
signal comes while bytes are left to be drained. -/
theorem captured_iff (depth : Nat) (hdepth : depth < cmdsubstMaxDepth) (stream : Text)
    (turns drains : List Turn) :
    (∃ r, petrushRunCmdsubst g junk depth stream turns drains = .ok r ∧ r.depth = depth) ∧
      (Granted g → ((∃ r, petrushRunCmdsubst g junk depth stream turns drains = .ok r ∧
          Captured depth stream r) ↔ Undisturbed (stream.length - maxBytes) drains)) := by
  refine ⟨petrushRunCmdsubst_depth g junk depth stream turns drains, fun hg => ?_⟩
  obtain ⟨buf, htext, hrun⟩ :=
    petrushRunCmdsubst_granted g junk hg hdepth stream turns drains
  have hdrain : (if maxBytes ≤ stream.length
      then (drainLoop ⟨stream.drop maxBytes, drains⟩).rest else []) = [] ↔
      Undisturbed (stream.length - maxBytes) drains := by
    by_cases hle : maxBytes ≤ stream.length
    · rw [if_pos hle, drainLoop_iff _ (Nat.le_refl _), List.length_drop]
    · rw [if_neg hle, Nat.sub_eq_zero_of_le (by omega)]
      simp [Undisturbed]
  rw [hrun]
  constructor
  · rintro ⟨r, hr, hcaptured⟩
    obtain rfl := Except.ok.inj hr
    exact hdrain.mp hcaptured.drained
  · intro h
    exact ⟨_, rfl, ⟨buf, rfl, htext⟩, hdrain.mpr h, rfl⟩

end Substitution

/-- A machine that refuses nothing. -/
def willing : Grants := ⟨true, true, fun _ => true⟩

theorem captured_iff_short :
    (∃ r, petrushRunCmdsubst willing nul 0 "ab".toList [.interrupted, .ready 0] [] = .ok r ∧
        r.depth = 0) ∧
      ((∃ r, petrushRunCmdsubst willing nul 0 "ab".toList [.interrupted, .ready 0] [] = .ok r ∧
          Captured 0 "ab".toList r) ↔ Undisturbed ("ab".toList.length - maxBytes) []) :=
  have h := captured_iff willing nul 0 (by decide) "ab".toList [.interrupted, .ready 0] []
  ⟨h.1, h.2 ⟨rfl, rfl, fun _ => rfl⟩⟩

/-- A signal at once: everything behind the captured text stays in the pipe. -/
theorem left_interrupted {stream : Text} (h : maxBytes < stream.length) :
    ∃ r, petrushRunCmdsubst willing nul 0 stream [] [.interrupted] = .ok r ∧
      r.left.length = stream.length - maxBytes ∧ ¬ Captured 0 stream r := by
  have hdeep : 0 < cmdsubstMaxDepth := by decide
  obtain ⟨buf, -, hrun⟩ := petrushRunCmdsubst_granted willing nul ⟨rfl, rfl, fun _ => rfl⟩ hdeep
    stream [] [.interrupted]
  have hread : (⟨stream.drop maxBytes, [.interrupted]⟩ : Source Char).read 256 =
      (none, ⟨stream.drop maxBytes, []⟩) := rfl
  rw [if_pos (Nat.le_of_lt h), drainLoop_interrupted hread] at hrun
  refine ⟨_, hrun, List.length_drop, fun hcaptured => ?_⟩
  have hnil : stream.drop maxBytes = [] := hcaptured.drained
  rw [List.drop_eq_nil_iff] at hnil
  omega

/-- **A signal ends the drain**: of a child that writes twice what is captured, the second
half stays in the pipe, which does not hold it, and the pipe is closed. -/
theorem drain_interrupted :
    ∃ r, petrushRunCmdsubst willing nul 0 (List.replicate (2 * maxBytes) 'x') [] [.interrupted] =
        .ok r ∧ r.left.length = maxBytes ∧ ¬ Captured 0 (List.replicate (2 * maxBytes) 'x') r := by
  have hlen : (List.replicate (2 * maxBytes) 'x').length = 2 * maxBytes := List.length_replicate
  have hpos : 0 < maxBytes := by
    rw [maxBytes]
    omega
  have hlong : maxBytes < (List.replicate (2 * maxBytes) 'x').length := by omega
  obtain ⟨r, hr, hleft, hnot⟩ := left_interrupted hlong
  exact ⟨r, hr, by omega, hnot⟩

end Petrush.Verified.Capturing
