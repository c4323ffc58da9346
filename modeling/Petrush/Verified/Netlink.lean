import Petrush.Mid.Netcom

/-!
# The dump of the links

The kernel sends messages, and a message about a link carries attributes; both are padded to
a multiple of four bytes, and a datagram holds as many messages as the kernel likes.  What
comes back does not depend on how they are spread over datagrams, nor on what was in the
buffer.

The loop over messages subtracts the padded length from what is left, and tests the
difference as an unsigned number: behind a datagram whose length is no multiple of four it
goes on in what an earlier one has left.

## Main results

* `dump_found` — the dump is the first links that have a name.
* `dump_safe` — datagrams of a multiple of four bytes are read within the buffer, whatever
  is in them.
* `dump_stale` — others are not.
-/

namespace Petrush.Verified.Netlink

open Petrush.Lib.CText
open Petrush.Lib.Wire
open Petrush.Mid.Netcom
open Petrush.Mid.Wai

/-! ## Messages -/

/-- An attribute. -/
structure Attr where
  type : Nat
  data : Bytes
  type_lt : type < 2 ^ 16
  length_lt : data.length + 4 < 2 ^ 16

/-- `struct rtattr` and the data. -/
def Attr.record (a : Attr) : Bytes := field 2 (a.data.length + 4) ++ field 2 a.type ++ a.data

/-- The bytes of attributes, one after the other. -/
def attrBytes (attrs : List Attr) : Bytes := attrs.flatMap fun a => padded a.record

/-- `struct ifinfomsg` and its attributes. -/
structure Link where
  /-- The family, the kind of device and its number. -/
  head : Bytes
  flags : Nat
  change : Bytes
  attrs : List Attr
  length_head : head.length = 8
  flags_lt : flags < 2 ^ 32
  length_change : change.length = 4

def Link.payload (l : Link) : Bytes := l.head ++ field 4 l.flags ++ l.change ++ attrBytes l.attrs

/-- What a message is about. -/
inductive Content where
  | link (l : Link)
  /-- The end of the answer, or an error. -/
  | stop (type : Nat) (payload : Bytes) (htype : type = nlmsgDone ∨ type = nlmsgError)
  | other (type : Nat) (payload : Bytes) (hlt : type < 2 ^ 16)
      (htype : type ≠ nlmsgDone ∧ type ≠ nlmsgError ∧ type ≠ rtmNewlink)

def Content.type : Content → Nat
  | .link _ => rtmNewlink
  | .stop type _ _ => type
  | .other type _ _ _ => type

def Content.payload : Content → Bytes
  | .link l => l.payload
  | .stop _ payload _ => payload
  | .other _ payload _ _ => payload

/-- A message: flags, sequence number and port stand between the type and the payload. -/
structure Message where
  content : Content
  control : Bytes
  length_control : control.length = 10
  length_lt : content.payload.length + 16 < 2 ^ 31

/-- `struct nlmsghdr` and the payload. -/
def Message.record (m : Message) : Bytes :=
  field 4 (m.content.payload.length + 16) ++ field 2 m.content.type ++ m.control ++
    m.content.payload

/-- A datagram. -/
def datagram (ms : List Message) : Bytes := ms.flatMap fun m => padded m.record

/-! ## What the messages say -/

/-- The last attribute that has the property. -/
def lastAttr (p : Attr → Bool) (attrs : List Attr) : Option Attr := attrs.reverse.find? p

/-- The attribute carries a state. -/
def Attr.isState (a : Attr) : Bool := a.type == iflaOperstate && !a.data.isEmpty

/-- The link that a message is about: of several names or states the last counts. -/
def Link.info (l : Link) : LinkInfo where
  name := ((lastAttr (fun a => a.type == iflaIfname) l.attrs).map
    fun a => stringOf (a.data.take (ifnamsiz - 1))).getD []
  flags := l.flags
  operstate := ((lastAttr Attr.isState l.attrs).map fun a => (a.data.headD 0).toNat).getD 0
  hasOperstate := (lastAttr Attr.isState l.attrs).isSome

def Content.stops : Content → Bool
  | .stop _ _ _ => true
  | _ => false

def Content.link? : Content → Option LinkInfo
  | .link l => some l.info
  | _ => none

/-- The links with a name before the end of the answer. -/
def named (ms : List Message) : List LinkInfo :=
  ((ms.takeWhile fun m => !m.content.stops).filterMap fun m => m.content.link?).filter
    fun l => l.name ≠ []

/-- The links that there is room for. -/
def found (ms : List Message) : List LinkInfo := (named ms).take nlIfMax

/-! ## Attributes -/

/-- What an attribute does to a slot. -/
def Attr.fill (slot : LinkInfo) (a : Attr) : LinkInfo :=
  if a.type = iflaIfname then { slot with name := stringOf (a.data.take (ifnamsiz - 1)) }
  else if a.type = iflaOperstate then
    match a.data with
    | [] => slot
    | state :: _ => { slot with operstate := state.toNat, hasOperstate := true }
  else slot

section Attributes

variable {a : Attr} {rest : Bytes} {slot : LinkInfo}

@[simp] theorem Attr.length_record (a : Attr) : a.record.length = a.data.length + 4 := by
  simp only [Attr.record, List.length_append, length_field]
  omega

/-- The fields of an attribute. -/
theorem Attr.read (a : Attr) (rest : Bytes) :
    readField 2 (padded a.record ++ rest) = some (a.data.length + 4) ∧
      readField 2 ((padded a.record ++ rest).drop 2) = some a.type ∧
      a.data <+: (padded a.record ++ rest).drop 4 := by
  have hbytes : ∃ pad, padded a.record ++ rest =
      field 2 (a.data.length + 4) ++ (field 2 a.type ++ (a.data ++ pad)) := by
    unfold padded
    generalize List.replicate _ (0 : UInt8) = zeros
    exact ⟨zeros ++ rest, by simp only [Attr.record, List.append_assoc]⟩
  obtain ⟨pad, hbytes⟩ := hbytes
  have hfour : (field 2 (a.data.length + 4) ++ field 2 a.type).length = 4 := by
    simp only [List.length_append, length_field]
  rw [hbytes]
  refine ⟨readField_field a.length_lt _, ?_, ?_⟩
  · rw [List.drop_left' (length_field 2 _)]
    exact readField_field a.type_lt _
  · rw [← List.append_assoc, List.drop_left' hfour]
    exact List.prefix_append _ _

theorem takeAttr_record : takeAttr (padded a.record ++ rest) (a.data.length + 4) slot =
    some (a.fill slot) := by
  obtain ⟨-, htype, u, hdata⟩ := a.read rest
  unfold takeAttr Attr.fill
  rw [htype, ← hdata, Nat.add_sub_cancel]
  show (if a.type = iflaIfname then _ else _) = _
  split
  · have htake : ∀ n ≤ a.data.length, (a.data ++ u).take n = a.data.take n :=
      fun n hn => List.take_append_of_le_length hn
    have hn : (if a.data.length ≥ ifnamsiz then ifnamsiz - 1 else a.data.length) ≤ a.data.length := by
      split
      next h => exact Nat.le_trans (Nat.sub_le _ _) h
      next => exact Nat.le_refl _
    have hcut : a.data.take (if a.data.length ≥ ifnamsiz then ifnamsiz - 1 else a.data.length) =
        a.data.take (ifnamsiz - 1) := by
      split
      next => rfl
      next h =>
        rw [List.take_of_length_le (Nat.le_refl _), List.take_of_length_le]
        exact Nat.le_sub_one_of_lt (Nat.lt_of_not_ge h)
    rw [htake _ hn, hcut, if_pos]
    rw [List.length_append]
    exact Nat.le_add_right_of_le hn
  · cases a.data with
    | nil =>
        rw [if_neg fun h => absurd h.2 (by decide)]
        split <;> rfl
    | cons b bytes =>
        by_cases htype : a.type = iflaOperstate
        · rw [if_pos ⟨htype, Nat.succ_pos _⟩, if_pos htype]
          rfl
        · rw [if_neg fun h => htype h.1, if_neg htype]

/-- The bytes of attributes are read one by one. -/
theorem takeAttrs_attrBytes (attrs : List Attr) (rest : Bytes) : ∀ n slot, attrs.length < n →
    takeAttrs n (attrBytes attrs ++ rest) (attrBytes attrs).length slot =
      some (attrs.foldl Attr.fill slot) := by
  induction attrs with
  | nil =>
      intro n slot hn
      obtain ⟨n, rfl⟩ := Nat.exists_eq_succ_of_ne_zero (Nat.ne_of_gt hn)
      rfl
  | cons a attrs ih =>
      intro n slot hn
      obtain ⟨n, rfl⟩ := Nat.exists_eq_succ_of_ne_zero (Nat.ne_zero_of_lt hn)
      have hbytes : attrBytes (a :: attrs) ++ rest = padded a.record ++ (attrBytes attrs ++ rest) := by
        rw [attrBytes, List.flatMap_cons, List.append_assoc]
        rfl
      have hlen : ((attrBytes (a :: attrs)).length : Int) =
          align (a.data.length + 4) + (attrBytes attrs).length := by
        rw [attrBytes, List.flatMap_cons, List.length_append, length_padded, Attr.length_record]
        exact Int.natCast_add _ _
      have hle := le_align (a.data.length + 4)
      obtain ⟨hread, -, -⟩ := a.read (attrBytes attrs ++ rest)
      have hok : rtaOk (padded a.record ++ (attrBytes attrs ++ rest))
          (attrBytes (a :: attrs)).length = some true := by
        unfold rtaOk
        rw [if_neg (by omega), hread]
        exact congrArg some (decide_eq_true (by omega))
      have hrest : (padded a.record ++ (attrBytes attrs ++ rest)).drop
          (align (a.data.length + 4)) = attrBytes attrs ++ rest := by
        rw [← Attr.length_record]
        exact drop_padded _ _
      rw [hbytes, takeAttrs, hok]
      simp only [Option.bind_eq_bind, Option.bind_some, if_true, hread, takeAttr_record, hrest]
      rw [hlen, add_sub_cancel_left]
      exact ih n (a.fill slot) (Nat.lt_of_succ_lt_succ hn)

end Attributes

/-! ## Links -/

section Links

variable {p : Attr → Bool} {attrs : List Attr} {a : Attr} {slot : LinkInfo}

theorem lastAttr_append : lastAttr p (attrs ++ [a]) = if p a then some a else lastAttr p attrs := by
  unfold lastAttr
  rw [List.reverse_append, List.reverse_singleton, List.singleton_append]
  cases h : p a with
  | true => exact List.find?_cons_of_pos h
  | false => exact List.find?_cons_of_neg (by rw [h]; exact Bool.false_ne_true)

/-- A field that only some attributes set is what the last of them sets. -/
theorem foldl_field (attrs : List Attr) (slot : LinkInfo) {β : Type} {f : LinkInfo → β}
    {g : Attr → β} (h : ∀ slot a, f (Attr.fill slot a) = if p a then g a else f slot) :
    f (attrs.foldl Attr.fill slot) = ((lastAttr p attrs).map g).getD (f slot) := by
  induction attrs using List.reverseRecOn with
  | nil => rfl
  | append_singleton attrs a ih =>
      rw [List.foldl_append, lastAttr_append]
      show f (Attr.fill (attrs.foldl Attr.fill slot) a) = _
      rw [h]
      split
      · rfl
      · exact ih

theorem foldl_flags (attrs : List Attr) : ∀ slot : LinkInfo,
    (attrs.foldl Attr.fill slot).flags = slot.flags := by
  induction attrs with
  | nil => exact fun _ => rfl
  | cons a attrs ih =>
      intro slot
      rw [List.foldl_cons, ih, Attr.fill]
      split
      · rfl
      · split
        · cases a.data <;> rfl
        · rfl

theorem fill_name (slot : LinkInfo) (a : Attr) : (Attr.fill slot a).name =
    if a.type == iflaIfname then stringOf (a.data.take (ifnamsiz - 1)) else slot.name := by
  unfold Attr.fill
  simp only [beq_iff_eq]
  split
  · rfl
  · split
    · cases a.data <;> rfl
    · rfl

theorem fill_state (slot : LinkInfo) (a : Attr) :
    (Attr.fill slot a).operstate = (if a.isState then (a.data.headD 0).toNat else slot.operstate) ∧
      (Attr.fill slot a).hasOperstate = if a.isState then true else slot.hasOperstate := by
  unfold Attr.fill Attr.isState
  by_cases hname : a.type = iflaIfname
  · have hother : (a.type == iflaOperstate) = false := by rw [hname]; rfl
    simp only [if_pos hname, hother, Bool.false_and, Bool.false_eq_true, if_false, and_self]
  · rw [if_neg hname]
    by_cases hstate : a.type = iflaOperstate
    · cases a.data <;> simp [hstate]
    · simp [hstate]

/-- The slot behind all attributes. -/
theorem foldl_fill (l : Link) : l.attrs.foldl Attr.fill ⟨[], l.flags, 0, false⟩ = l.info := by
  ext1
  · exact foldl_field _ _ fill_name
  · exact foldl_flags _ _
  · exact foldl_field _ _ fun slot a => (fill_state slot a).1
  · refine (foldl_field _ _ fun slot a => (fill_state slot a).2).trans ?_
    unfold Link.info
    cases lastAttr Attr.isState l.attrs <;> rfl

theorem Link.length_payload (l : Link) : l.payload.length = (attrBytes l.attrs).length + 16 := by
  simp only [Link.payload, List.length_append, length_field, l.length_head, l.length_change]
  omega

theorem length_attrs_le (attrs : List Attr) : attrs.length ≤ (attrBytes attrs).length := by
  induction attrs with
  | nil => exact Nat.le_refl 0
  | cons a attrs ih =>
      have hle := le_align (a.data.length + 4)
      rw [attrBytes, List.flatMap_cons, List.length_append, length_padded, Attr.length_record,
        List.length_cons]
      unfold attrBytes at ih
      omega

/-- A message with its header, and what stands behind it. -/
theorem Message.bytes (m : Message) (rest : Bytes) : ∃ zeros, padded m.record ++ rest =
    field 4 (m.content.payload.length + 16) ++ (field 2 m.content.type ++
      (m.control ++ (m.content.payload ++ (zeros ++ rest)))) := by
  unfold padded
  generalize List.replicate _ (0 : UInt8) = zeros
  exact ⟨zeros, by simp only [Message.record, List.append_assoc]⟩

/-- The fields of `struct ifinfomsg`. -/
theorem newLink_record {m : Message} {l : Link} (hl : m.content = .link l) (rest : Bytes) :
    newLink (padded m.record ++ rest) (l.payload.length + 16) = some l.info := by
  obtain ⟨zeros, hbytes⟩ := m.bytes rest
  have hlt := m.length_lt
  rw [hl] at hbytes hlt
  have hlen := l.length_payload
  have hsplit : padded m.record ++ rest = (field 4 (l.payload.length + 16) ++
      (field 2 rtmNewlink ++ (m.control ++ l.head))) ++ (field 4 l.flags ++ (l.change ++
        (attrBytes l.attrs ++ (zeros ++ rest)))) := by
    rw [hbytes]
    simp only [Content.payload, Content.type, Link.payload, List.append_assoc]
  have hflags : readField 4 ((padded m.record ++ rest).drop 24) = some l.flags := by
    rw [hsplit, List.drop_left' (by simp [m.length_control, l.length_head])]
    exact readField_field l.flags_lt _
  have hattrs : (padded m.record ++ rest).drop 32 = attrBytes l.attrs ++ (zeros ++ rest) := by
    have hfour : (padded m.record ++ rest).drop 32 =
        ((padded m.record ++ rest).drop 24).drop 8 := by rw [List.drop_drop]
    rw [hfour, hsplit, List.drop_left' (by simp [m.length_control, l.length_head]),
      ← List.append_assoc, List.drop_left' (by simp [l.length_change])]
  have hroom : Int.bmod ((l.payload.length + 16 : Nat) - 32) (2 ^ 32) =
      (attrBytes l.attrs).length := by
    rw [Content.payload, hlen] at hlt
    rw [hlen]
    have hsub : (((attrBytes l.attrs).length + 16 + 16 : Nat) : Int) - 32 =
        (attrBytes l.attrs).length := by omega
    rw [hsub]
    exact Int.bmod_eq_of_le_mul_two (by omega) (by omega)
  have hturns : l.attrs.length < (padded m.record ++ rest).length + 1 := by
    have hle := length_attrs_le l.attrs
    rw [hsplit]
    simp only [List.length_append]
    omega
  rw [newLink, hflags, hattrs]
  show takeAttrs _ _ (Int.bmod ((l.payload.length + 16 : Nat) - 32) (2 ^ 32)) _ = _
  rw [hroom, takeAttrs_attrBytes _ _ _ _ hturns, foldl_fill]

end Links

/-! ## Messages in a datagram -/

section Messages

variable {m : Message} {ms : List Message} {rest : Bytes} {links : List LinkInfo}

@[simp] theorem Message.length_record (m : Message) :
    m.record.length = m.content.payload.length + 16 := by
  simp only [Message.record, List.length_append, length_field, m.length_control]
  omega

theorem Content.type_lt (c : Content) : c.type < 256 ^ 2 := by
  cases c with
  | link l => exact (by decide : rtmNewlink < 256 ^ 2)
  | stop type payload htype =>
      rcases htype with rfl | rfl
      · exact (by decide : nlmsgDone < 256 ^ 2)
      · exact (by decide : nlmsgError < 256 ^ 2)
  | other type payload hlt htype => exact hlt

theorem Content.stops_iff (c : Content) :
    c.stops = true ↔ c.type = nlmsgDone ∨ c.type = nlmsgError := by
  cases c with
  | link l => exact iff_of_false Bool.false_ne_true (by decide : ¬ (16 = 3 ∨ 16 = 2))
  | stop type payload htype => exact iff_of_true rfl htype
  | other type payload hlt htype =>
      exact iff_of_false Bool.false_ne_true fun h => h.elim htype.1 htype.2.1

/-- The fields of a header. -/
theorem Message.read (m : Message) (rest : Bytes) :
    readField 4 (padded m.record ++ rest) = some (m.content.payload.length + 16) ∧
      readField 2 ((padded m.record ++ rest).drop 4) = some m.content.type := by
  obtain ⟨zeros, hbytes⟩ := m.bytes rest
  have hlt := m.length_lt
  rw [hbytes]
  refine ⟨readField_field (by omega) _, ?_⟩
  rw [List.drop_left' (length_field 4 _)]
  exact readField_field m.content.type_lt _

/-- What a message adds to the links. -/
def Content.add (links : List LinkInfo) (c : Content) : List LinkInfo :=
  match c.link? with
  | none => links
  | some l => if links.length ≥ nlIfMax then links else if l.name ≠ [] then links ++ [l] else links

theorem takeMessage_record (hstop : m.content.stops = false) :
    takeMessage (padded m.record ++ rest) (m.content.payload.length + 16) m.content.type links =
      some (m.content.add links) := by
  unfold takeMessage Content.add
  cases hc : m.content with
  | stop type payload htype =>
      rw [hc] at hstop
      contradiction
  | other type payload hlt htype => exact if_pos htype.2.2
  | link l =>
      rw [if_neg (fun h => h rfl)]
      show (if _ then _ else _) = some (if _ then _ else _)
      split
      · rfl
      · show (newLink _ (l.payload.length + 16)).map _ = _
        rw [newLink_record hc]
        rfl

/-- **The messages of a datagram are read one by one**, up to the end of the answer. -/
theorem takeMessages_datagram (ms : List Message) (rest : Bytes) : ∀ n links, ms.length < n →
    (datagram ms).length < 2 ^ 32 →
    takeMessages n (datagram ms ++ rest) (datagram ms).length links =
      some (ms.any fun m => m.content.stops,
        (ms.takeWhile fun m => !m.content.stops).foldl (fun links m => m.content.add links) links) := by
  induction ms with
  | nil =>
      intro n links hn _
      obtain ⟨n, rfl⟩ := Nat.exists_eq_succ_of_ne_zero (Nat.ne_of_gt hn)
      rfl
  | cons m ms ih =>
      intro n links hn hlt
      obtain ⟨n, rfl⟩ := Nat.exists_eq_succ_of_ne_zero (Nat.ne_zero_of_lt hn)
      have hbytes : datagram (m :: ms) ++ rest = padded m.record ++ (datagram ms ++ rest) := by
        rw [datagram, List.flatMap_cons, List.append_assoc]
        rfl
      have hlen : (datagram (m :: ms)).length =
          align (m.content.payload.length + 16) + (datagram ms).length := by
        rw [datagram, List.flatMap_cons, List.length_append, length_padded, Message.length_record]
        rfl
      have hle := le_align (m.content.payload.length + 16)
      obtain ⟨hread, htype⟩ := m.read (datagram ms ++ rest)
      have hroom : ((datagram (m :: ms)).length : Int) % 2 ^ 32 = (datagram (m :: ms)).length :=
        Int.emod_eq_of_lt (Int.natCast_nonneg _) (by omega)
      have hok : nlmsgOk (padded m.record ++ (datagram ms ++ rest)) (datagram (m :: ms)).length =
          some true := by
        unfold nlmsgOk
        rw [hroom, if_neg (by omega), hread]
        exact congrArg some (decide_eq_true (by omega))
      have hstep : align (m.content.payload.length + 16) % 2 ^ 32 =
          align (m.content.payload.length + 16) := Nat.mod_eq_of_lt (by omega)
      have hrest : (padded m.record ++ (datagram ms ++ rest)).drop
          (align (m.content.payload.length + 16)) = datagram ms ++ rest := by
        rw [← Message.length_record]
        exact drop_padded _ _
      rw [hbytes, takeMessages, hok]
      simp only [Option.bind_eq_bind, Option.bind_some, if_true, hread, htype]
      cases hstop : m.content.stops with
      | true =>
          rw [if_pos ((m.content.stops_iff).mp hstop), List.any_cons, hstop, Bool.true_or,
            List.takeWhile_cons_of_neg (by rw [hstop]; decide)]
          rfl
      | false =>
          have hgo : ¬ (m.content.type = nlmsgDone ∨ m.content.type = nlmsgError) := by
            intro h
            rw [(m.content.stops_iff).mpr h] at hstop
            contradiction
          rw [if_neg hgo, takeMessage_record hstop]
          simp only [Option.bind_some, hstep, hrest]
          rw [hlen, Nat.cast_add, add_sub_cancel_left, List.any_cons, hstop, Bool.false_or,
            List.takeWhile_cons_of_pos (by rw [hstop]; rfl), List.foldl_cons]
          exact ih n _ (Nat.lt_of_succ_lt_succ hn) (by omega)

end Messages

/-! ## The dump -/

/-- The links that the messages add are the first with a name. -/
theorem foldl_add (ms : List Message) : ∀ links : List LinkInfo, links.length ≤ nlIfMax →
    ms.foldl (fun links m => m.content.add links) links =
      (links ++ (ms.filterMap fun m => m.content.link?).filter fun l => l.name ≠ []).take
        nlIfMax := by
  induction ms with
  | nil =>
      intro links hle
      rw [List.filterMap_nil, List.filter_nil, List.append_nil, List.take_of_length_le hle]
      rfl
  | cons m ms ih =>
      intro links hle
      rw [List.foldl_cons]
      cases hlink : m.content.link? with
      | none =>
          have hadd : m.content.add links = links := by rw [Content.add, hlink]
          rw [hadd, List.filterMap_cons, hlink]
          exact ih links hle
      | some l =>
          have hadd : m.content.add links = if links.length ≥ nlIfMax then links
              else if l.name ≠ [] then links ++ [l] else links := by rw [Content.add, hlink]
          rw [hadd, List.filterMap_cons, hlink]
          split
          next hfull =>
            rw [ih links hle, List.take_append_of_le_length hfull,
              List.take_append_of_le_length hfull]
          next hroom =>
            split
            next hname =>
              rw [List.filter_cons_of_pos (by simpa using hname), ih]
              · rw [List.append_assoc]
                rfl
              · rw [List.length_append]
                exact Nat.lt_of_not_ge hroom
            next hname =>
              rw [List.filter_cons_of_neg (by simpa using hname)]
              exact ih links hle

theorem foldl_add_le (ms : List Message) {links : List LinkInfo} (h : links.length ≤ nlIfMax) :
    (ms.foldl (fun links m => m.content.add links) links).length ≤ nlIfMax := by
  rw [foldl_add ms links h]
  exact List.length_take_le _ _

theorem datagram_ne_nil {ms : List Message} (h : ms ≠ []) : datagram ms ≠ [] := by
  cases ms with
  | nil => contradiction
  | cons m ms =>
      intro hnil
      have hlen := congrArg List.length hnil
      rw [datagram, List.flatMap_cons, List.length_append, length_padded, Message.length_record]
        at hlen
      have hle := le_align (m.content.payload.length + 16)
      rw [List.length_nil] at hlen
      omega

theorem length_datagram_le (ms : List Message) : ms.length ≤ (datagram ms).length := by
  induction ms with
  | nil => exact Nat.le_refl 0
  | cons m ms ih =>
      have hle := le_align (m.content.payload.length + 16)
      rw [datagram, List.flatMap_cons, List.length_append, length_padded, Message.length_record,
        List.length_cons]
      unfold datagram at ih
      omega

/-- Behind the end of the answer nothing is taken. -/
theorem takeWhile_append_stop {ms : List Message} (later : List Message)
    (h : (ms.any fun m => m.content.stops) = true) :
    (ms ++ later).takeWhile (fun m => !m.content.stops) =
      ms.takeWhile fun m => !m.content.stops := by
  induction ms with
  | nil => contradiction
  | cons m ms ih =>
      rw [List.cons_append]
      cases hstop : m.content.stops with
      | true =>
          rw [List.takeWhile_cons_of_neg (by rw [hstop]; decide),
            List.takeWhile_cons_of_neg (by rw [hstop]; decide)]
      | false =>
          rw [List.any_cons, hstop, Bool.false_or] at h
          rw [List.takeWhile_cons_of_pos (by rw [hstop]; rfl),
            List.takeWhile_cons_of_pos (by rw [hstop]; rfl), ih h]

theorem takeDatagrams_sent (sent : List (List Message)) :
    (∀ ms ∈ sent, ms ≠ [] ∧ (datagram ms).length ≤ bufSize) → ∀ buf links,
    links.length ≤ nlIfMax → takeDatagrams buf (sent.map datagram) links =
      some ((sent.flatten.takeWhile fun m => !m.content.stops).foldl
        (fun links m => m.content.add links) links) := by
  induction sent with
  | nil => exact fun _ _ _ _ => rfl
  | cons ms sent ih =>
      intro hfits buf links hle
      obtain ⟨hne, hsize⟩ := hfits ms List.mem_cons_self
      have hturns : ms.length < (datagram ms ++ buf.drop (datagram ms).length).length + 1 := by
        rw [List.length_append]
        exact Nat.lt_succ_of_le (Nat.le_add_right_of_le (length_datagram_le ms))
      have hlt : (datagram ms).length < 2 ^ 32 := Nat.lt_of_le_of_lt hsize (by norm_num [bufSize])
      have hread := takeMessages_datagram ms (buf.drop (datagram ms).length) _ links hturns hlt
      rw [List.map_cons, takeDatagrams, List.take_of_length_le hsize]
      dsimp only
      rw [if_neg (datagram_ne_nil hne), hread, List.flatten_cons]
      simp only [Option.bind_eq_bind, Option.bind_some]
      cases hstop : ms.any fun m => m.content.stops with
      | true => rw [if_pos rfl, takeWhile_append_stop sent.flatten hstop]
      | false =>
          have hall : ∀ m ∈ ms, (!m.content.stops) = true := by
            simpa using hstop
          have htake : ms.takeWhile (fun m => !m.content.stops) = ms :=
            List.takeWhile_eq_self_iff.mpr hall
          rw [if_neg Bool.false_ne_true, htake, List.takeWhile_append_of_pos hall,
            List.foldl_append]
          exact ih (fun ms h => hfits ms (List.mem_cons_of_mem _ h)) _ _ (foldl_add_le ms hle)

/-- **The dump is the first links that have a name**, in the order in which they are sent,
however the messages are spread over datagrams and whatever was in the buffer. -/
theorem dump_found (T : Tree) (hroot : T.root = []) (stale : Bytes) (sent : List (List Message))
    (hfits : ∀ ms ∈ sent, ms ≠ [] ∧ (datagram ms).length ≤ bufSize) :
    netlinkDumpLinks T true stale (sent.map datagram) = some (found sent.flatten) := by
  have hopen : ¬ (T.root ≠ [] ∨ ¬ true = true) := by
    rintro (h | h)
    · exact h hroot
    · exact h rfl
  rw [netlinkDumpLinks, if_neg hopen, takeDatagrams_sent sent hfits stale [] (Nat.zero_le _),
    foldl_add _ _ (Nat.zero_le _)]
  rfl

/-- No overlay. -/
def bareTree : Tree := ⟨[], Nat.zero_lt_succ _, fun _ => none, fun _ => none, fun _ => false⟩

/-- `IFLA_IFNAME` with `eth0`, and `IFLA_OPERSTATE` with 6. -/
def sampleAttrs : List Attr :=
  [⟨iflaIfname, [101, 116, 104, 48, 0], by decide, by decide⟩,
    ⟨iflaOperstate, [6], by decide, by decide⟩]

def sampleLink : Link :=
  ⟨List.replicate 8 0, 1, List.replicate 4 0, sampleAttrs, rfl, by decide, rfl⟩

/-- A message with nothing in its other fields. -/
def plainMessage (c : Content) (h : c.payload.length + 16 < 2 ^ 31) : Message :=
  ⟨c, List.replicate 10 0, rfl, h⟩

/-- The link in one datagram, and the end of the answer in the next. -/
def sampleSent : List (List Message) :=
  [[plainMessage (.link sampleLink) (by decide)],
    [plainMessage (.stop nlmsgDone [] (.inl rfl)) (by decide)]]

theorem dump_found_sample : netlinkDumpLinks bareTree true [] (sampleSent.map datagram) =
    some [⟨"eth0".toList, 1, 6, true⟩] := by
  have hfits : ∀ ms ∈ sampleSent, ms ≠ [] ∧ (datagram ms).length ≤ bufSize := by
    simp only [sampleSent, List.forall_mem_cons, List.not_mem_nil, false_implies, implies_true,
      and_true]
    exact ⟨⟨List.cons_ne_nil _ _, by decide⟩, List.cons_ne_nil _ _, by decide⟩
  exact (dump_found bareTree rfl [] sampleSent hfits).trans (congrArg some (by decide))

/-! ## Any datagrams -/

/-- The fields hold what their types can hold. -/
structure Sound (slot : LinkInfo) : Prop where
  name : slot.name.length < ifnamsiz
  flags : slot.flags < 2 ^ 32
  operstate : slot.operstate < 2 ^ 8

/-- The links so far. -/
def Kept (links : List LinkInfo) : Prop :=
  links.length ≤ nlIfMax ∧ ∀ l ∈ links, l.name ≠ [] ∧ Sound l

section Safe

variable {nh rta : Bytes} {slot : LinkInfo} {links : List LinkInfo}

theorem length_stringOf_le (bytes : Bytes) : (stringOf bytes).length ≤ bytes.length := by
  have hle := (List.takeWhile_prefix (fun c => c != nul)
    (l := bytes.map fun b => Char.ofNat b.toNat)).length_le
  rwa [List.length_map] at hle

/-- An attribute within the buffer. -/
theorem takeAttr_safe {l : Nat} (hl : 4 ≤ l) (hle : l ≤ rta.length) (h : Sound slot) :
    ∃ slot', takeAttr rta l slot = some slot' ∧ Sound slot' := by
  have hlen : (rta.drop 2).length = rta.length - 2 := List.length_drop
  have hlen' : (rta.drop 4).length = rta.length - 4 := List.length_drop
  obtain ⟨type, htype⟩ := readField_isSome (by omega : 2 ≤ (rta.drop 2).length)
  unfold takeAttr
  rw [htype]
  simp only [Option.bind_eq_bind, Option.bind_some]
  split
  · have hn : (if l - 4 ≥ ifnamsiz then ifnamsiz - 1 else l - 4) ≤ l - 4 ∧
        (if l - 4 ≥ ifnamsiz then ifnamsiz - 1 else l - 4) < ifnamsiz := by
      split
      next hlong => exact ⟨Nat.le_trans (Nat.sub_le _ _) hlong, by decide⟩
      next hshort => exact ⟨Nat.le_refl _, Nat.lt_of_not_ge hshort⟩
    rw [if_pos (by omega)]
    refine ⟨_, rfl, ?_, h.flags, h.operstate⟩
    refine Nat.lt_of_le_of_lt (length_stringOf_le _) ?_
    exact Nat.lt_of_le_of_lt (List.length_take_le _ _) hn.2
  · split
    next hstate =>
      obtain ⟨state, hread⟩ := readField_isSome (by omega : 1 ≤ (rta.drop 4).length)
      rw [hread]
      exact ⟨_, rfl, h.name, h.flags, readField_lt hread⟩
    next => exact ⟨_, rfl, h⟩

/-- The loop over attributes stays within what is left of the buffer. -/
theorem takeAttrs_safe (n : Nat) : ∀ (rta : Bytes) (len : Int) (slot : LinkInfo), len < n → 0 < n →
    len ≤ rta.length → Sound slot → ∃ slot', takeAttrs n rta len slot = some slot' ∧ Sound slot' := by
  induction n with
  | zero => exact fun _ _ _ _ hn => absurd hn (Nat.lt_irrefl 0)
  | succ n ih =>
      intro rta len slot hlen _ hle hslot
      rw [takeAttrs]
      by_cases hshort : len < 4
      · rw [rtaOk, if_pos hshort]
        exact ⟨slot, rfl, hslot⟩
      · obtain ⟨l, hread⟩ := readField_isSome (by omega : 2 ≤ rta.length)
        rw [rtaOk, if_neg hshort, hread]
        simp only [Option.bind_eq_bind, Option.bind_some, Option.map_some, decide_eq_true_eq]
        split
        next hok =>
          have hfits : l ≤ rta.length := by omega
          obtain ⟨slot', htake, hslot'⟩ := takeAttr_safe hok.1 hfits hslot
          have hstep := le_align l
          have hdrop : (rta.drop (align l)).length = rta.length - align l := List.length_drop
          rw [htake]
          exact ih _ _ slot' (by omega) (by omega) (by omega) hslot'
        next => exact ⟨slot, rfl, hslot⟩

theorem newLink_safe {len : Nat} (hroom : 28 ≤ nh.length) (hle : len ≤ nh.length)
    (hlt : nh.length < 2 ^ 31) : ∃ slot, newLink nh len = some slot ∧ Sound slot := by
  have hlen : (nh.drop 24).length = nh.length - 24 := List.length_drop
  have hlen' : (nh.drop 32).length = nh.length - 32 := List.length_drop
  obtain ⟨flags, hflags⟩ := readField_isSome (by omega : 4 ≤ (nh.drop 24).length)
  have hmod : Int.bmod ((len : Int) - 32) (2 ^ 32) = len - 32 :=
    Int.bmod_eq_of_le_mul_two (by omega) (by omega)
  rw [newLink, hflags]
  show ∃ slot, takeAttrs _ _ (Int.bmod ((len : Int) - 32) (2 ^ 32)) _ = some slot ∧ Sound slot
  rw [hmod]
  exact takeAttrs_safe _ _ _ _ (by omega) (Nat.succ_pos _) (by omega)
    ⟨Nat.succ_pos _, readField_lt hflags, Nat.two_pow_pos 8⟩

theorem takeMessage_safe {len : Nat} (type : Nat) (hroom : 28 ≤ nh.length) (hle : len ≤ nh.length)
    (hlt : nh.length < 2 ^ 31) (h : Kept links) :
    ∃ links', takeMessage nh len type links = some links' ∧ Kept links' := by
  unfold takeMessage
  split
  · exact ⟨links, rfl, h⟩
  · split
    · exact ⟨links, rfl, h⟩
    next hfull =>
      obtain ⟨slot, hslot, hsound⟩ := newLink_safe hroom hle hlt
      rw [hslot]
      refine ⟨_, rfl, ?_⟩
      dsimp only
      split
      next hname =>
        refine ⟨?_, fun l hl => ?_⟩
        · rw [List.length_append]
          exact Nat.lt_of_not_ge hfull
        · rcases List.mem_append.mp hl with hl | hl
          · exact h.2 l hl
          · rw [List.mem_singleton.mp hl]
            exact ⟨hname, hsound⟩
      next => exact h

/-- The loop over messages stays within the datagram: what is left of it is a multiple of
four, and so is what a message takes. -/
theorem takeMessages_safe (n : Nat) : ∀ (nh : Bytes) (nr : Nat) (links : List LinkInfo), nr < n →
    nr % 4 = 0 → nr + 12 ≤ nh.length → nh.length < 2 ^ 31 → Kept links →
    ∃ r, takeMessages n nh nr links = some r ∧ Kept r.2 := by
  induction n with
  | zero => exact fun _ nr _ hn => absurd hn (Nat.not_lt_zero nr)
  | succ n ih =>
      intro nh nr links hn hfour hroom hlt hlinks
      have hmod : (nr : Int) % 2 ^ 32 = nr := Int.emod_eq_of_lt (Int.natCast_nonneg _) (by omega)
      rw [takeMessages, nlmsgOk, hmod]
      by_cases hshort : (nr : Int) < 16
      · rw [if_pos hshort]
        exact ⟨_, rfl, hlinks⟩
      · have hlen : (nh.drop 4).length = nh.length - 4 := List.length_drop
        obtain ⟨len, hread⟩ := readField_isSome (by omega : 4 ≤ nh.length)
        obtain ⟨type, htype⟩ := readField_isSome (by omega : 2 ≤ (nh.drop 4).length)
        rw [if_neg hshort, hread, htype]
        simp only [Option.bind_eq_bind, Option.bind_some, Option.map_some, decide_eq_true_eq]
        split
        next hok =>
          split
          · exact ⟨_, rfl, hlinks⟩
          · obtain ⟨links', htake, hlinks'⟩ :=
              takeMessage_safe type (by omega) (by omega : len ≤ nh.length) hlt hlinks
            have hle := align_le (by omega : len ≤ nr) hfour
            have hpos := le_align len
            have hstep : align len % 2 ^ 32 = align len := Nat.mod_eq_of_lt (by omega)
            have hdrop : (nh.drop (align len)).length = nh.length - align len := List.length_drop
            have hsub : (nr : Int) - align len = (nr - align len : Nat) := by omega
            have hrest : (nr - align len) % 4 = 0 := by
              have := align_mod len
              omega
            rw [htake]
            simp only [Option.bind_some, hstep, hsub]
            exact ih _ _ links' (by omega) hrest (by omega) (by omega) hlinks'
        next => exact ⟨_, rfl, hlinks⟩

theorem takeDatagrams_safe (datagrams : List Bytes) :
    (∀ d ∈ datagrams, d.length % 4 = 0 ∧ d.length + 12 ≤ bufSize) → ∀ buf links,
    buf.length = bufSize → Kept links →
    ∃ links', takeDatagrams buf datagrams links = some links' ∧ Kept links' := by
  induction datagrams with
  | nil => exact fun _ _ links _ hlinks => ⟨links, rfl, hlinks⟩
  | cons d datagrams ih =>
      intro h buf links hbuf hlinks
      obtain ⟨hfour, hsize⟩ := h d List.mem_cons_self
      have hlen : (d ++ buf.drop d.length).length = bufSize := by
        rw [List.length_append, List.length_drop, hbuf]
        omega
      have hlt : bufSize < 2 ^ 31 := by norm_num [bufSize]
      obtain ⟨r, hread, hkept⟩ := takeMessages_safe ((d ++ buf.drop d.length).length + 1)
        (d ++ buf.drop d.length) d.length links (by omega) hfour (by omega) (by omega) hlinks
      rw [takeDatagrams, List.take_of_length_le (by omega)]
      dsimp only
      split
      · exact ⟨links, rfl, hlinks⟩
      · rw [hread]
        simp only [Option.bind_eq_bind, Option.bind_some]
        split
        · exact ⟨_, rfl, hkept⟩
        · exact ih (fun d hd => h d (List.mem_cons_of_mem _ hd)) _ _ hlen hkept

end Safe

/-- **Datagrams of a multiple of four bytes are read within the buffer**, whatever is in them,
and the links that are kept have a name that fits. -/
theorem dump_safe (T : Tree) (opened : Bool) {stale : Bytes} (hstale : stale.length = bufSize)
    {datagrams : List Bytes} (h : ∀ d ∈ datagrams, d.length % 4 = 0 ∧ d.length + 12 ≤ bufSize) :
    ∃ links, netlinkDumpLinks T opened stale datagrams = some links ∧ Kept links := by
  have hnone : Kept [] := ⟨Nat.zero_le _, nofun⟩
  unfold netlinkDumpLinks
  split
  · exact ⟨[], rfl, hnone⟩
  · exact takeDatagrams_safe datagrams h stale [] hstale hnone

theorem dump_safe_cut : ∃ links, netlinkDumpLinks bareTree true (List.replicate bufSize 255)
    [List.replicate 20 17] = some links ∧ Kept links := by
  refine dump_safe bareTree true List.length_replicate fun d hd => ?_
  rw [List.mem_singleton.mp hd]
  decide

/-- A message of 17 bytes, of no type that counts. -/
def oddDatagram : Bytes := field 4 17 ++ List.replicate 13 0

/-- **The length has to be a multiple of four**: behind this datagram the loop goes on in what
the buffer held before, and takes a link from there. -/
theorem dump_stale : netlinkDumpLinks bareTree true
    (List.replicate 20 0 ++ (sampleSent.map datagram).flatten ++ List.replicate 8104 0)
    [oddDatagram] = some [⟨"eth0".toList, 1, 6, true⟩] := by
  decide +kernel

end Petrush.Verified.Netlink
