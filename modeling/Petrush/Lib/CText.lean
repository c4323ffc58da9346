import Mathlib

/-!
# C text: byte strings and the `<ctype.h>` classes

A C string is modelled as the `List Char` of its bytes before the
terminating NUL, one `Char` for each byte.  The classes are those of the C
locale (and of every UTF-8 locale, where no single byte above `0x7f` is a
letter, a digit or a blank).

`cstr` is what a `char *` function sees of a buffer that may itself hold a
NUL, as a line read by `fgets` may.
-/

namespace Petrush.Lib.CText

/-- The bytes of a C string, without the NUL. -/
abbrev Text := List Char

/-- `isspace` in the C locale: blank, `\t`, `\n`, `\v`, `\f`, `\r`. -/
def isspace (c : Char) : Bool :=
  c == ' ' || (decide (9 ≤ c.toNat) && decide (c.toNat ≤ 13))

/-- `isdigit`. -/
def isdigit (c : Char) : Bool := c.isDigit

/-- `isalpha` in the C locale. -/
def isalpha (c : Char) : Bool := c.isAlpha

/-- `isalnum` in the C locale. -/
def isalnum (c : Char) : Bool := c.isAlphanum

/-- The NUL byte. -/
def nul : Char := Char.ofNat 0

/-- What C string functions see of a buffer: everything before the first
NUL. -/
def cstr (t : Text) : Text := t.takeWhile (fun c => c != nul)

theorem cstr_eq_self {t : Text} (h : nul ∉ t) : cstr t = t := by
  rw [cstr, List.takeWhile_eq_self_iff]
  intro c hc
  have hne : c ≠ nul := fun heq => h (heq ▸ hc)
  simpa using hne

/-! ## Trimming -/

/-- Drop every leading and trailing byte of a class. -/
def trim (p : Char → Bool) (t : Text) : Text :=
  ((t.dropWhile p).reverse.dropWhile p).reverse

/-- The first byte outside the class survives. -/
theorem trim_of_dropWhile {p : Char → Bool} {t u : Text} {c : Char}
    (h : t.dropWhile p = c :: u) :
    trim p t = c :: (u.reverse.dropWhile p).reverse := by
  have hc : p c = false := by
    have hget := List.dropWhile_get_zero_not (p := p) t (by rw [h]; simp)
    simpa [h] using hget
  rw [trim, h, List.reverse_cons, List.dropWhile_append]
  by_cases hnil : u.reverse.dropWhile p = []
  · simp [hnil, hc]
  · simp [hnil]

/-- Text that neither begins nor ends with a byte of the class is left alone. -/
theorem trim_eq_self {p : Char → Bool} {t : Text} (hhead : ∀ c ∈ t.head?, p c = false)
    (hlast : ∀ c ∈ t.getLast?, p c = false) : trim p t = t := by
  have hdrop : ∀ s : Text, (∀ c ∈ s.head?, p c = false) → s.dropWhile p = s := by
    intro s hs
    cases s with
    | nil => rfl
    | cons c s => simp [hs c (by simp)]
  have hrev : t.reverse.dropWhile p = t.reverse :=
    hdrop _ (by simpa [List.head?_reverse] using hlast)
  rw [trim, hdrop t hhead, hrev, List.reverse_reverse]

theorem trim_subset (p : Char → Bool) (t : Text) : trim p t ⊆ t := by
  intro c hc
  have h := (List.dropWhile_sublist p).subset (List.mem_reverse.mp hc)
  exact (List.dropWhile_sublist p).subset (List.mem_reverse.mp h)

/-- The first byte of trimmed text is outside the class. -/
theorem trim_head {p : Char → Bool} {t : Text} : ∀ c ∈ (trim p t).head?, p c = false := by
  intro c hc
  cases hdrop : t.dropWhile p with
  | nil =>
      rw [trim, hdrop] at hc
      contradiction
  | cons d u =>
      rw [trim_of_dropWhile hdrop] at hc
      obtain rfl : d = c := Option.some.inj hc
      have hget := List.dropWhile_get_zero_not (p := p) t (by rw [hdrop]; simp)
      simpa [hdrop] using hget

/-- So is the last. -/
theorem trim_last {p : Char → Bool} {t : Text} : ∀ c ∈ (trim p t).getLast?, p c = false := by
  intro c hc
  rw [trim, List.getLast?_reverse] at hc
  cases hdrop : (t.dropWhile p).reverse.dropWhile p with
  | nil =>
      rw [hdrop] at hc
      contradiction
  | cons d u =>
      rw [hdrop] at hc
      obtain rfl : d = c := Option.some.inj hc
      have hget := List.dropWhile_get_zero_not (p := p) (t.dropWhile p).reverse
        (by rw [hdrop]; simp)
      simpa [hdrop] using hget

theorem trim_trim (p : Char → Bool) (t : Text) : trim p (trim p t) = trim p t :=
  trim_eq_self trim_head trim_last

theorem trim_append_tail {p : Char → Bool} {t u : Text}
    (hu : ∀ c ∈ u, p c = true) : trim p (t ++ u) = trim p t := by
  have hall : ∀ v : Text, (∀ c ∈ v, p c = true) → v.dropWhile p = [] :=
    fun v hv => List.dropWhile_eq_nil_iff.mpr hv
  have hrev : ∀ c ∈ u.reverse, p c = true :=
    fun c hc => hu c (List.mem_reverse.mp hc)
  by_cases ht : t.dropWhile p = []
  · have hmem : ∀ c ∈ t ++ u, p c = true := by
      intro c hc
      rcases List.mem_append.mp hc with h | h
      · exact List.dropWhile_eq_nil_iff.mp ht c h
      · exact hu c h
    rw [trim, trim, hall _ hmem, ht]
  · have happ : (t ++ u).dropWhile p = t.dropWhile p ++ u := by
      rw [List.dropWhile_append]
      simp [ht]
    rw [trim, trim, happ, List.reverse_append, List.dropWhile_append]
    simp [hall _ hrev]

end Petrush.Lib.CText
