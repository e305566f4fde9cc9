import Mathlib.Data.Fin.VecNotation
import Mathlib.Data.Fintype.Pi
import Mathlib.Data.List.TakeWhile
import Tampi.Model.Configuration

/-! # Splitting and extraction

`splitOn_eq` compares the lines of a `std::getline` loop with the fields between all separators:
only an empty last field is lost. A text then has as many non-empty lines as fields exactly if no
field is empty, which is how the parsers of several elements tell their shape
(`split_length_iff`). `Counts` says on the text of a field what an unchecked extraction stores. -/

namespace Tampi
variable {delim : Char} {s t : List Char}

/-! ## Lines and fields -/

theorem getlines_cons_of_ne (h : c ≠ delim) :
    getlines delim (c :: s) = (c :: (getlines delim s).headD []) :: (getlines delim s).tail := by
  rw [getlines, if_neg h]
  cases getlines delim s <;> rfl

theorem getlines_append (h : delim ∉ s) :
    getlines delim (s ++ delim :: t) = s :: getlines delim t := by
  induction s with
  | nil => simp [getlines]
  | cons c s ih =>
    rw [List.mem_cons, not_or] at h
    rw [List.cons_append, getlines_cons_of_ne (Ne.symm h.1), ih h.2]
    rfl

theorem getlines_of_not_mem (hs : s ≠ []) (h : delim ∉ s) : getlines delim s = [s] := by
  induction s with
  | nil => exact absurd rfl hs
  | cons c s ih =>
    rw [List.mem_cons, not_or] at h
    rw [getlines_cons_of_ne (Ne.symm h.1)]
    cases s with
    | nil => rfl
    | cons d s => rw [ih (List.cons_ne_nil _ _) h.2]; rfl

theorem getlines_eq_nil : getlines delim s = [] ↔ s = [] := by
  constructor
  · intro h
    cases s with
    | nil => rfl
    | cons c s =>
      by_cases hc : c = delim
      · simp [getlines, hc] at h
      · rw [getlines_cons_of_ne hc] at h
        cases h
  · rintro rfl
    rfl

/-- The first line ends at the first separator, or it is all there is. -/
theorem getlines_cases (h : getlines delim s = line :: lines) : delim ∉ line ∧
    (s = line ∧ lines = [] ∨ ∃ t, s = line ++ delim :: t ∧ getlines delim t = lines) := by
  by_cases hmem : delim ∈ s
  · obtain ⟨a, b, rfl, ha⟩ := List.eq_append_cons_of_mem hmem
    rw [getlines_append ha] at h
    cases h
    exact ⟨ha, .inr ⟨b, rfl, rfl⟩⟩
  · have hs : s ≠ [] := by
      rintro rfl
      cases h
    rw [getlines_of_not_mem hs hmem] at h
    cases h
    exact ⟨hmem, .inl ⟨rfl, rfl⟩⟩

theorem length_getlines_lt (delim : Char) (s t : List Char) :
    (getlines delim t).length < (getlines delim (s ++ delim :: t)).length := by
  induction s with
  | nil => simp [getlines]
  | cons c s ih =>
    by_cases hc : c = delim
    · rw [List.cons_append, getlines, if_pos hc]
      exact Nat.lt_succ_of_lt ih
    · rw [List.cons_append, getlines_cons_of_ne hc, List.length_cons, List.length_tail]
      omega

/-- The two lines of a text, after which a separator may follow. -/
theorem getlines_eq_two : getlines delim s = [a, b] ↔ delim ∉ a ∧ delim ∉ b ∧
    ∃ t ∈ [[], [delim]], b ++ t ≠ [] ∧ s = a ++ delim :: (b ++ t) := by
  constructor
  · intro h
    obtain ⟨ha, ⟨-, hnil⟩ | ⟨t, rfl, ht⟩⟩ := getlines_cases h
    · cases hnil
    have hne : t ≠ [] := by
      rintro rfl
      cases ht
    obtain ⟨hb, ⟨rfl, -⟩ | ⟨t', rfl, ht'⟩⟩ := getlines_cases ht
    · exact ⟨ha, hb, [], by simp, by simpa using hne, by simp⟩
    · cases getlines_eq_nil.mp ht'
      exact ⟨ha, hb, [delim], by simp, hne, rfl⟩
  · rintro ⟨ha, hb, t, ht, hne, rfl⟩
    rw [getlines_append ha]
    rcases List.mem_cons.mp ht with rfl | ht
    · rw [List.append_nil] at hne ⊢
      rw [getlines_of_not_mem hne hb]
    · cases List.mem_singleton.mp ht
      rw [getlines_append hb]
      rfl

theorem getline_append (h : delim ∉ s) : getline delim (s ++ delim :: t) = some (s, t) := by
  have hne : ∀ c ∈ s, decide (c ≠ delim) = true := fun c hc =>
    decide_eq_true fun hd => h (hd ▸ hc)
  have hsome : getline delim (s ++ delim :: t) = some ((s ++ delim :: t).takeWhile (· ≠ delim),
      ((s ++ delim :: t).dropWhile (· ≠ delim)).drop 1) := by
    cases s <;> rfl
  rw [hsome, List.takeWhile_append_of_pos hne, List.dropWhile_append_of_pos hne]
  simp

theorem getline_of_not_mem (hs : s ≠ []) (h : delim ∉ s) : getline delim s = some (s, []) := by
  have hne : ∀ c ∈ s, decide (c ≠ delim) = true := fun c hc =>
    decide_eq_true fun hd => h (hd ▸ hc)
  have hsome : getline delim s =
      some (s.takeWhile (· ≠ delim), (s.dropWhile (· ≠ delim)).drop 1) := by
    cases s with
    | nil => exact absurd rfl hs
    | cons => rfl
  rw [hsome, List.takeWhile_eq_self_iff.mpr hne, List.dropWhile_eq_nil_iff.mpr hne]
  rfl

/-- The loop: one line is read, and then the lines of what is left. -/
theorem getlines_eq (delim : Char) (s : List Char) : getlines delim s =
    match getline delim s with
    | none => []
    | some (line, rest) => line :: getlines delim rest := by
  by_cases hmem : delim ∈ s
  · obtain ⟨a, b, rfl, ha⟩ := List.eq_append_cons_of_mem hmem
    rw [getlines_append ha, getline_append ha]
  · by_cases hs : s = []
    · rw [hs]
      rfl
    · rw [getlines_of_not_mem hs hmem, getline_of_not_mem hs hmem]
      rfl

theorem splitOn_eq (delim : Char) (s : List Char) :
    s.splitOn delim = getlines delim s ∨ s.splitOn delim = getlines delim s ++ [[]] := by
  induction s with
  | nil => exact .inr rfl
  | cons c s ih =>
    rw [List.splitOn_cons_eq_if_modifyHead]
    by_cases hc : c = delim
    · rw [if_pos (by simpa using hc), getlines, if_pos hc]
      exact ih.imp (by rw [·]) (by rw [·]; rfl)
    · rw [if_neg (by simpa using hc), getlines_cons_of_ne hc]
      cases hlines : getlines delim s with
      | nil =>
        rw [hlines] at ih
        rcases ih with ih | ih
        · exact absurd ih (List.splitOn_ne_nil delim s)
        · exact .inl (by rw [ih]; rfl)
      | cons line lines =>
        rw [hlines] at ih
        exact ih.imp (by rw [·]; rfl) (by rw [·]; rfl)

theorem split_eq : split s delim = (s.splitOn delim).filter (· ≠ []) := by
  rcases splitOn_eq delim s with h | h
  · rw [split, h]
  · rw [split, h, List.filter_append]
    simp

theorem length_splitOn (delim : Char) (s : List Char) :
    (s.splitOn delim).length = s.count delim + 1 := by
  induction s with
  | nil => rfl
  | cons c s ih =>
    rw [List.splitOn_cons_eq_if_modifyHead, List.count_cons]
    split
    · simp [ih]
    · simp [ih]

theorem split_length_iff :
    (split s delim).length = s.count delim + 1 ↔ ∀ c ∈ s.splitOn delim, c ≠ [] := by
  rw [split_eq, ← length_splitOn, List.length_filter_eq_length_iff]
  simp

/-! ## Decimal numbers -/

/-- A decimal unsigned integer. -/
def Decimal (s : List Char) : Prop := s ≠ [] ∧ ∀ c ∈ s, c.isDigit = true

instance : Decidable (Decimal s) := inferInstanceAs (Decidable (_ ∧ _))

def decimalValue (s : List Char) : Nat := Nat.ofDigitChars 10 s 0

theorem isspace_of_isDigit (h : c.isDigit = true) : isspace c = false := by
  by_contra hno
  rw [Bool.not_eq_false] at hno
  simp only [isspace, Bool.or_eq_true, decide_eq_true_eq] at hno
  rcases hno with ((((rfl | rfl) | rfl) | rfl) | rfl) | rfl <;> exact absurd h (by decide)

/-- The sign of a number, if it has one. -/
inductive Sign
  | none
  | plus
  | minus

def Sign.text : Sign → List Char
  | .none => []
  | .plus => ['+']
  | .minus => ['-']

def Sign.negative : Sign → Bool
  | .minus => true
  | _ => false

/-- What an extraction makes of the digits: at most the largest value, and after a minus the negation
modulo `2^64`. -/
def Sign.value : Sign → Nat → Nat
  | .minus, n => if UINT64_MAX < n then UINT64_MAX else (UINT64_MAX + 1 - n) % (UINT64_MAX + 1)
  | _, n => min n UINT64_MAX

/-- A field that is not blank, and what it counts as: the number after blanks and a sign, up to
the last digit, and zero if there is no digit. -/
inductive Counts : List Char → Nat → Prop
  | number (sign : Sign) : (∀ c ∈ blanks, isspace c) → Decimal digits →
    (∀ c ∈ rest.head?, c.isDigit = false) →
    Counts (blanks ++ (sign.text ++ (digits ++ rest))) (sign.value (decimalValue digits))
  | sign {sign : Sign} : (∀ c ∈ blanks, isspace c) → sign.text ≠ [] →
    (∀ c ∈ rest.head?, c.isDigit = false) → Counts (blanks ++ (sign.text ++ rest)) 0
  | other : (∀ c ∈ blanks, isspace c) → isspace c = false → c.isDigit = false →
    c ∉ ['+', '-'] → Counts (blanks ++ c :: rest) 0

theorem extract_append (h : ∀ c ∈ blanks, isspace c) : extract (blanks ++ s) = extract s := by
  rw [extract, List.dropWhile_append_of_pos h]
  rfl

theorem extract_of_blank (h : ∀ c ∈ s, isspace c) : extract s = ⟨none, true⟩ := by
  rw [extract, List.dropWhile_eq_nil_iff.mpr h]

theorem extract_cons (hc : isspace c = false) (hs : c ∉ ['+', '-']) :
    extract (c :: s) = extractDigits false (c :: s) := by
  rw [extract, List.dropWhile_cons_of_neg (by simp [hc])]
  split
  · contradiction
  next heq =>
    rw [(List.cons.inj heq).1] at hs
    exact absurd (List.mem_cons_of_mem _ (List.mem_singleton_self _)) hs
  next heq =>
    rw [(List.cons.inj heq).1] at hs
    exact absurd List.mem_cons_self hs
  next => rfl

theorem extract_sign (sign : Sign) (hd : sign.text ≠ [] ∨ ∃ c ∈ s.head?, c.isDigit = true) :
    extract (sign.text ++ s) = extractDigits sign.negative s := by
  cases sign with
  | plus | minus => rfl
  | none =>
    obtain ⟨c, hc, hdigit⟩ := hd.resolve_left (fun h => h rfl)
    obtain ⟨s, rfl⟩ := List.head?_eq_some_iff.mp hc
    refine extract_cons (isspace_of_isDigit hdigit) fun hmem => ?_
    simp only [List.mem_cons, List.not_mem_nil, or_false] at hmem
    rcases hmem with rfl | rfl <;> exact absurd hdigit (by decide)

theorem takeWhile_digits {digits rest : List Char} (hd : ∀ c ∈ digits, c.isDigit = true)
    (hr : ∀ c ∈ rest.head?, c.isDigit = false) :
    (digits ++ rest).takeWhile Char.isDigit = digits := by
  rw [List.takeWhile_append_of_pos hd]
  cases rest with
  | nil => simp
  | cons c rest => simp [hr c rfl]

theorem extractDigits_of_decimal {digits rest : List Char} (sign : Sign) (hd : Decimal digits)
    (hr : ∀ c ∈ rest.head?, c.isDigit = false) :
    ∃ v, (extractDigits sign.negative (digits ++ rest)).value = some v ∧
      v.toNat = sign.value (decimalValue digits) := by
  rw [extractDigits, takeWhile_digits hd.2 hr, if_neg hd.1,
    show Nat.ofDigitChars 10 digits 0 = decimalValue digits from rfl]
  split
  next hlt =>
    refine ⟨_, rfl, ?_⟩
    rw [show (UInt64.ofNat UINT64_MAX).toNat = UINT64_MAX from rfl]
    cases sign with
    | none | plus => exact (min_eq_right hlt.le).symm
    | minus => exact (if_pos hlt).symm
  next hle =>
    have hlt : decimalValue digits < 2 ^ 64 := by
      rw [UINT64_MAX] at hle
      omega
    refine ⟨_, rfl, ?_⟩
    cases sign with
    | none | plus => exact (Nat.mod_eq_of_lt hlt).trans (min_eq_left (not_lt.mp hle)).symm
    | minus =>
      rw [Sign.negative, if_pos rfl, UInt64.toNat_neg, UInt64.toNat_ofNat', Nat.mod_eq_of_lt hlt]
      exact (if_neg hle).symm

theorem extractDigits_of_not_isDigit (negative : Bool) (h : ∀ c ∈ s.head?, c.isDigit = false) :
    (extractDigits negative s).value = some 0 := by
  have hnil : s.takeWhile Char.isDigit = [] := takeWhile_digits (List.forall_mem_nil _) h
  rw [extractDigits, hnil]
  rfl

/-- The extraction stores what the field counts as. -/
theorem Counts.extract (h : Counts s n) : ∃ v, (extract s).value = some v ∧ v.toNat = n := by
  cases h with
  | @number blanks digits rest sign hb hd hr =>
    obtain ⟨c, digits', rfl⟩ := List.exists_cons_of_ne_nil hd.1
    rw [extract_append hb, extract_sign sign (.inr ⟨c, rfl, hd.2 c List.mem_cons_self⟩)]
    exact extractDigits_of_decimal sign hd hr
  | sign hb hs hr =>
    rw [extract_append hb, extract_sign _ (.inl hs), extractDigits_of_not_isDigit _ hr]
    exact ⟨0, rfl, rfl⟩
  | other hb hc hd hs =>
    rw [extract_append hb, extract_cons hc hs, extractDigits_of_not_isDigit _ (by simpa using hd)]
    exact ⟨0, rfl, rfl⟩

/-- After blanks and a sign there are digits or none; without a sign there are some. -/
theorem exists_counts_sign (hb : ∀ c ∈ blanks, isspace c) (sign : Sign)
    (hs : sign.text ≠ [] ∨ ∃ c ∈ s.head?, c.isDigit = true) :
    ∃ n, Counts (blanks ++ (sign.text ++ s)) n := by
  by_cases hd : ∃ c ∈ s.head?, c.isDigit = true
  · have hdigits : Decimal (s.takeWhile Char.isDigit) := by
      obtain ⟨c, hc, hdigit⟩ := hd
      obtain ⟨s, rfl⟩ := List.head?_eq_some_iff.mp hc
      refine ⟨?_, fun c hc => List.mem_takeWhile_imp hc⟩
      rw [List.takeWhile_cons_of_pos hdigit]
      exact List.cons_ne_nil _ _
    have hrest : ∀ c ∈ (s.dropWhile Char.isDigit).head?, c.isDigit = false := by
      intro c hc
      have := List.head?_dropWhile_not Char.isDigit s
      rwa [hc] at this
    have hcounts := Counts.number sign hb hdigits hrest
    rw [List.takeWhile_append_dropWhile] at hcounts
    exact ⟨_, hcounts⟩
  · have hs := hs.resolve_right hd
    push Not at hd
    exact ⟨0, .sign hb hs fun c hc => Bool.eq_false_of_not_eq_true (hd c hc)⟩

/-- A field that is not blank counts as something. -/
theorem exists_counts (h : ∃ c ∈ s, isspace c = false) : ∃ n, Counts s n := by
  have hb : ∀ c ∈ s.takeWhile isspace, isspace c = true := fun c hc => List.mem_takeWhile_imp hc
  rw [← List.takeWhile_append_dropWhile (p := isspace) (l := s)]
  cases hrest : s.dropWhile isspace with
  | nil =>
    obtain ⟨c, hc, hspace⟩ := h
    have := List.dropWhile_eq_nil_iff.mp hrest c hc
    rw [hspace] at this
    cases this
  | cons c t =>
    have hspace := List.head?_dropWhile_not isspace s
    rw [hrest] at hspace
    by_cases hplus : c = '+'
    · subst hplus
      exact exists_counts_sign hb .plus (.inl (List.cons_ne_nil _ _))
    by_cases hminus : c = '-'
    · subst hminus
      exact exists_counts_sign hb .minus (.inl (List.cons_ne_nil _ _))
    by_cases hd : c.isDigit = true
    · exact exists_counts_sign hb .none (.inr ⟨c, rfl, hd⟩)
    · exact ⟨0, .other hb hspace (Bool.eq_false_of_not_eq_true hd) (by simp [hplus, hminus])⟩

/-- A field that stores a value counts as it. -/
theorem counts_of_extract (h : (extract s).value = some v) : Counts s v.toNat := by
  have hblank : ∃ c ∈ s, isspace c = false := by
    by_contra hno
    push Not at hno
    rw [extract_of_blank fun c hc => Bool.eq_true_of_not_eq_false (hno c hc)] at h
    cases h
  obtain ⟨n, hn⟩ := exists_counts hblank
  obtain ⟨w, hw, rfl⟩ := hn.extract
  rw [h] at hw
  cases hw
  exact hn

theorem Counts.ne_nil (h : Counts s n) : s ≠ [] := by
  rintro rfl
  obtain ⟨v, hv, -⟩ := h.extract
  cases hv

/-- The extraction of a decimal integer saturates. -/
theorem extract_of_decimal (h : Decimal s) :
    extract s =
      ⟨some (.ofNat (min (decimalValue s) UINT64_MAX)), decide (UINT64_MAX < decimalValue s)⟩ := by
  have htake : s.takeWhile Char.isDigit = s := List.takeWhile_eq_self_iff.mpr h.2
  have hextract : extract s = extractDigits false s := by
    obtain ⟨c, s, rfl⟩ := List.exists_cons_of_ne_nil h.1
    exact extract_sign .none (.inr ⟨c, rfl, h.2 c List.mem_cons_self⟩)
  rw [hextract, extractDigits, htake]
  simp only [h.1, if_false, Bool.false_eq_true]
  change (if UINT64_MAX < decimalValue s then _ else _) = _
  split
  · rw [min_eq_right (by omega)]
    simp [*]
  · rw [min_eq_left (by omega), decide_eq_false ‹_›]
    rfl

theorem decimal_toDigits (n : Nat) : Decimal (Nat.toDigits 10 n) :=
  ⟨Nat.toDigits_ne_nil, fun _ hc => Nat.isDigit_of_mem_toDigits (by decide) (by decide) hc⟩

/-- The decimal rendering of a `uint64_t` is read back. -/
theorem parse_toDigits (a : UInt64) :
    (parse (Nat.toDigits 10 a.toNat) : Option UInt64) = some a := by
  have hvalue : decimalValue (Nat.toDigits 10 a.toNat) = a.toNat := Nat.ofDigitChars_ten_toDigits
  have hle : a.toNat ≤ UINT64_MAX := Nat.le_of_lt_succ a.toNat_lt
  simp only [parse, extract_of_decimal (decimal_toDigits _), hvalue]
  rw [min_eq_left hle]
  simp [hle]

/-! ## Three elements -/

/-- A component of a text: not empty, and without separator. -/
def Component (delim : Char) (c : List Char) : Prop := c ≠ [] ∧ delim ∉ c

theorem component_toDigits (n : Nat) : Component ':' (Nat.toDigits 10 n) :=
  ⟨Nat.toDigits_ne_nil, fun hmem => absurd ((decimal_toDigits n).2 _ hmem) (by decide)⟩

section three
variable {T₁ T₂ T₃ : Type} [Parse T₁] [Parse T₂] [Parse T₃] {o o' : Elements T₁ T₂ T₃}

/-- A text of one to three components that are accepted, with the outputs for it. -/
inductive Accepted (delim : Char) (o : Elements T₁ T₂ T₃) : List Char → Elements T₁ T₂ T₃ → Prop
  | one : Component delim c₁ → parse c₁ = some v₁ →
    Accepted delim o c₁ { o with present := ![true, false, false], value1 := v₁ }
  | two : Component delim c₁ → Component delim c₂ → parse c₁ = some v₁ → parse c₂ = some v₂ →
    Accepted delim o (c₁ ++ delim :: c₂)
      { o with present := ![true, true, false], value1 := v₁, value2 := v₂ }
  | three : Component delim c₁ → Component delim c₂ → Component delim c₃ →
    parse c₁ = some v₁ → parse c₂ = some v₂ → parse c₃ = some v₃ →
    Accepted delim o (c₁ ++ delim :: (c₂ ++ delim :: c₃))
      ⟨![true, true, true], v₁, v₂, v₃⟩

theorem parseThree_of_shape (h : (∃ c ∈ s.splitOn delim, c = []) ∨ 3 < (s.splitOn delim).length) :
    parseThree s o delim = (false, o) := by
  rw [parseThree, if_pos]
  by_contra hno
  push Not at hno
  have hall := split_length_iff.mp hno.1
  rcases h with ⟨c, hc, rfl⟩ | h
  · exact hall [] hc rfl
  · rw [length_splitOn, ← hno.1] at h
    omega

theorem not_mem_of_mem_splitOn (hc : c ∈ s.splitOn delim) : delim ∉ c := by
  induction s generalizing c with
  | nil =>
    rw [List.splitOn_nil, List.mem_singleton] at hc
    simp [hc]
  | cons d s ih =>
    rw [List.splitOn_cons_eq_if_modifyHead] at hc
    split at hc
    · rcases List.mem_cons.mp hc with rfl | hc
      · exact List.not_mem_nil
      · exact ih hc
    next hd =>
    cases hs : s.splitOn delim with
    | nil => exact absurd hs (List.splitOn_ne_nil delim s)
    | cons c' cs =>
      rw [hs, List.modifyHead_cons] at hc
      rcases List.mem_cons.mp hc with rfl | hc
      · have := ih (hs ▸ List.mem_cons_self)
        simp only [List.mem_cons, not_or]
        exact ⟨fun heq => hd (by simp [heq]), this⟩
      · exact ih (hs ▸ List.mem_cons_of_mem _ hc)

theorem splitOn_of_accepted (h : Accepted delim o s o') :
    (∀ c ∈ s.splitOn delim, c ≠ []) ∧ (s.splitOn delim).length ≤ 3 := by
  cases h with
  | one h₁ _ => simp [List.splitOn_eq_singleton h₁.2, h₁.1]
  | two h₁ h₂ _ _ =>
    simp [List.splitOn_append_cons_self_of_not_mem h₁.2, List.splitOn_eq_singleton h₂.2, h₁.1, h₂.1]
  | three h₁ h₂ h₃ _ _ _ =>
    simp [List.splitOn_append_cons_self_of_not_mem h₁.2,
      List.splitOn_append_cons_self_of_not_mem h₂.2, List.splitOn_eq_singleton h₃.2, h₁.1, h₂.1, h₃.1]

theorem parseThree_of_fields (hc : ∀ c ∈ s.splitOn delim, c ≠ [])
    (hlen : (s.splitOn delim).length ≤ 3) :
    parseThree s o delim =
      { o with present := fun _ => false }.parseComponents (s.splitOn delim) := by
  have hsplit : split s delim = s.splitOn delim := by
    rw [split_eq, List.filter_eq_self]
    intro c hmem
    exact decide_eq_true (hc c hmem)
  rw [parseThree, hsplit, if_neg]
  rw [length_splitOn]
  rw [length_splitOn] at hlen
  omega

theorem parseThree_of_accepted (h : Accepted delim o s o') : parseThree s o delim = (true, o') := by
  obtain ⟨hc, hlen⟩ := splitOn_of_accepted h
  rw [parseThree_of_fields hc hlen]
  cases h with
  | one h₁ hv₁ =>
    simp [List.splitOn_eq_singleton h₁.2, Elements.parseComponents, Elements.parseElement, hv₁]
    decide
  | two h₁ h₂ hv₁ hv₂ =>
    simp [List.splitOn_append_cons_self_of_not_mem h₁.2, List.splitOn_eq_singleton h₂.2,
      Elements.parseComponents, Elements.parseElement, hv₁, hv₂]
    decide
  | three h₁ h₂ h₃ hv₁ hv₂ hv₃ =>
    simp [List.splitOn_append_cons_self_of_not_mem h₁.2,
      List.splitOn_append_cons_self_of_not_mem h₂.2, List.splitOn_eq_singleton h₃.2,
      Elements.parseComponents, Elements.parseElement, hv₁, hv₂, hv₃]
    decide

theorem accepted_of_fields (hc : ∀ c ∈ cs, Component delim c) (hne : cs ≠ []) (hlen : cs.length ≤ 3)
    (h : (o.parseComponents cs).1 = true) :
    ∃ o', Accepted delim o ([delim].intercalate cs) o' := by
  match cs with
  | [c₁] =>
    cases hv₁ : (parse c₁ : Option T₁) with
    | none => simp [Elements.parseComponents, Elements.parseElement, hv₁] at h
    | some v₁ =>
      rw [List.intercalate_singleton]
      exact ⟨_, .one (hc c₁ (by simp)) hv₁⟩
  | [c₁, c₂] =>
    cases hv₁ : (parse c₁ : Option T₁) with
    | none => simp [Elements.parseComponents, Elements.parseElement, hv₁] at h
    | some v₁ =>
      cases hv₂ : (parse c₂ : Option T₂) with
      | none => simp [Elements.parseComponents, Elements.parseElement, hv₁, hv₂] at h
      | some v₂ =>
        rw [List.intercalate_cons_cons, List.intercalate_singleton, List.append_assoc]
        exact ⟨_, .two (hc c₁ (by simp)) (hc c₂ (by simp)) hv₁ hv₂⟩
  | [c₁, c₂, c₃] =>
    cases hv₁ : (parse c₁ : Option T₁) with
    | none => simp [Elements.parseComponents, Elements.parseElement, hv₁] at h
    | some v₁ =>
      cases hv₂ : (parse c₂ : Option T₂) with
      | none => simp [Elements.parseComponents, Elements.parseElement, hv₁, hv₂] at h
      | some v₂ =>
        cases hv₃ : (parse c₃ : Option T₃) with
        | none => simp [Elements.parseComponents, Elements.parseElement, hv₁, hv₂, hv₃] at h
        | some v₃ =>
          rw [List.intercalate_cons_cons, List.intercalate_cons_cons, List.intercalate_singleton,
            List.append_assoc, List.append_assoc]
          exact ⟨_, .three (hc c₁ (by simp)) (hc c₂ (by simp)) (hc c₃ (by simp)) hv₁ hv₂ hv₃⟩
  | _ :: _ :: _ :: _ :: _ =>
    simp only [List.length_cons] at hlen
    omega

theorem exists_accepted (h : (parseThree s o delim).1 = true) : ∃ o', Accepted delim o s o' := by
  have hshape : (∀ c ∈ s.splitOn delim, c ≠ []) ∧ (s.splitOn delim).length ≤ 3 := by
    by_contra hno
    rw [parseThree_of_shape] at h
    · cases h
    · by_contra hno'
      push Not at hno'
      exact hno hno'
  obtain ⟨hc, hlen⟩ := hshape
  rw [parseThree_of_fields hc hlen] at h
  obtain ⟨o', ho'⟩ := accepted_of_fields (fun c hmem => ⟨hc c hmem, not_mem_of_mem_splitOn hmem⟩)
    (List.splitOn_ne_nil delim s) hlen h
  rw [List.intercalate_splitOn] at ho'
  refine ⟨o', ?_⟩
  cases ho' with
  | one h₁ hv₁ => exact .one h₁ hv₁
  | two h₁ h₂ hv₁ hv₂ => exact .two h₁ h₂ hv₁ hv₂
  | three h₁ h₂ h₃ hv₁ hv₂ hv₃ => exact .three h₁ h₂ h₃ hv₁ hv₂ hv₃

/-- The texts that are accepted, with their outputs. -/
theorem parseThree_iff : (parseThree s o delim).1 = true ↔ ∃ o', Accepted delim o s o' :=
  ⟨exists_accepted, fun ⟨_, h⟩ => by rw [parseThree_of_accepted h]⟩

end three

/-- The parser of `TAMPI_POLLING_PERIOD` accepts one to three components, of which the ones that are
numbers are extracted, and nothing else; what is rendered is read back. -/
theorem parseThree_spec (o : Elements UInt64 UInt64 (List Char)) :
    (∀ s, (parseThree s o ':').1 = true ↔ ∃ o', Accepted ':' o s o') ∧
      (∀ s o', Accepted ':' o s o' → parseThree s o ':' = (true, o')) ∧
      (∀ s, (parseThree (':' :: s) o ':').1 = false) ∧
      (∀ s, (parseThree (s ++ [':']) o ':').1 = false) ∧
      (∀ s t, (parseThree (s ++ ':' :: ':' :: t) o ':').1 = false) ∧
      (parseThree [] o ':').1 = false ∧
      (∀ s, 3 ≤ s.count ':' → (parseThree s o ':').1 = false) ∧
      ∀ (a b : UInt64) p, p ≠ [] → ':' ∉ p →
        parseThree (Nat.toDigits 10 a.toNat ++ ':' :: (Nat.toDigits 10 b.toNat ++ ':' :: p)) o ':' =
          (true, ⟨fun _ => true, a, b, p⟩) := by
  refine ⟨fun s => parseThree_iff, fun s o' => parseThree_of_accepted, fun s => ?_, fun s => ?_,
    fun s t => ?_, ?_, fun s hcount => ?_, fun a b p hp hsep => ?_⟩
  · rw [parseThree_of_shape (.inl ⟨[], ?_, rfl⟩)]
    simp [List.splitOn_cons_eq_if_modifyHead]
  · rw [parseThree_of_shape (.inl ⟨[], ?_, rfl⟩)]
    simp [List.splitOn_append_cons_self]
  · rw [parseThree_of_shape (.inl ⟨[], ?_, rfl⟩)]
    simp [List.splitOn_append_cons_self, List.splitOn_cons_eq_if_modifyHead]
  · rw [parseThree_of_shape (.inl ⟨[], ?_, rfl⟩)]
    simp
  · rw [parseThree_of_shape (.inr ?_)]
    rw [length_splitOn]
    omega
  · have hall : (fun _ => true) = ![true, true, true] := by decide
    rw [hall]
    exact parseThree_of_accepted (.three (component_toDigits a.toNat) (component_toDigits b.toNat)
      ⟨hp, hsep⟩ (parse_toDigits a) (parse_toDigits b) rfl)

theorem parseThree_slowstart :
    let o : Elements UInt64 UInt64 (List Char) := ⟨fun _ => false, 0, 0, []⟩
    (parseThree "1:2:3:4".toList o ':').1 = false ∧
      parseThree "10:1000:slowstart".toList o ':' =
        (true, ⟨fun _ => true, 10, 1000, "slowstart".toList⟩) := by
  obtain ⟨-, -, -, -, -, -, hfour, hrender⟩ := parseThree_spec ⟨fun _ => false, 0, 0, []⟩
  exact ⟨hfour _ (by decide), hrender 10 1000 _ (by decide) (by decide)⟩

end Tampi
