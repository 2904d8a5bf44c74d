import Fluxion.Decimal.Basic

/-!
# The texts of unsigned numbers

An unsigned number is written as digits with at most one point among them, optionally followed by an
exponent: a mark, optionally a sign, and digits. The predicates below say which texts these are and
which decimal each of them stands for, with no mention of how a text is read. A reader takes the
longest such text at the front of what it is given.

* `Decimal.NumberText` are the texts of numbers.
* `Decimal.NumberAt` says that a number stands at the front of a text and what follows it.
* `Decimal.scan?_eq_some_iff` says that this is what the scanner finds.
* `Decimal.scan?_append` reads a number before anything that cannot belong to it.
-/

namespace Fluxion

namespace Text

/-- Digits lie below the first letter or far above the last one. -/
theorem toNat_of_digitValue? {c : Char} {v : Nat} (h : digitValue? c = some v) :
    0x30 ≤ c.toNat ∧ c.toNat < 0x3A ∨ 0x660 ≤ c.toNat := by
  obtain ⟨first, hfind, -⟩ := Option.map_eq_some_iff.mp h
  have hin := Array.find?_some hfind
  have hmem := Array.mem_of_find?_eq_some hfind
  have hzeros : ∀ z ∈ digitZeros, z = 0x30 ∨ 0x660 ≤ z := by decide
  simp only [Bool.and_eq_true, decide_eq_true_eq] at hin
  rcases hzeros first hmem with rfl | hz <;> omega

/-- Where the letters lie. -/
theorem isAlpha_iff {c : Char} :
    c.isAlpha = true ↔ 0x41 ≤ c.toNat ∧ c.toNat ≤ 0x5A ∨ 0x61 ≤ c.toNat ∧ c.toNat ≤ 0x7A := by
  have hcode : c.isAlpha =
      (decide (65 ≤ c.val ∧ c.val ≤ 90) || decide (97 ≤ c.val) && decide (c.val ≤ 122)) := rfl
  rw [hcode]
  simp only [Bool.or_eq_true, Bool.and_eq_true, decide_eq_true_eq, UInt32.le_iff_toNat_le]
  exact Iff.rfl

/-- A digit is not a letter. -/
theorem isAlpha_of_digitValue? {c : Char} {v : Nat} (h : digitValue? c = some v) :
    c.isAlpha = false := by
  have hc := toNat_of_digitValue? h
  rw [← Bool.not_eq_true, isAlpha_iff]
  omega

end Text

namespace Decimal

/-! ## What numbers look like -/

/-- The characters are digits with the values given. -/
inductive DigitText : List Char → List Nat → Prop
  | nil : DigitText [] []
  | cons {c : Char} {v : Nat} {cs : List Char} {vs : List Nat} (head : Text.digitValue? c = some v)
      (tail : DigitText cs vs) : DigitText (c :: cs) (v :: vs)

/-- Digits with at most one point among them, and at least one digit on some side of it. -/
inductive MantissaText : List Char → List Nat → List Nat → Prop
  | whole {w : List Char} {ws : List Nat} (digits : DigitText w ws) (some_digit : ws ≠ []) :
      MantissaText w ws []
  | pointed {w f : List Char} {ws fs : List Nat} (digits : DigitText w ws) (some_digit : ws ≠ [])
      (places : DigitText f fs) : MantissaText (w ++ '.' :: f) ws fs
  | fraction {f : List Char} {fs : List Nat} (places : DigitText f fs) (some_digit : fs ≠ []) :
      MantissaText ('.' :: f) [] fs

/-- An optional sign, and whether it is a minus. -/
inductive SignText : List Char → Bool → Prop
  | none : SignText [] false
  | plus : SignText ['+'] false
  | minus : SignText ['-'] true

/-- An optional exponent and its value. -/
inductive ExponentText : List Char → Int → Prop
  | none : ExponentText [] 0
  | marked {c : Char} {sign cs : List Char} {negative : Bool} {vs : List Nat}
      (mark : c = 'e' ∨ c = 'E') (signed : SignText sign negative) (digits : DigitText cs vs)
      (some_digit : vs ≠ []) :
      ExponentText (c :: (sign ++ cs)) (if negative then -(ofDigits vs : Int) else ofDigits vs)

/-- The text of an unsigned number, and the decimal it stands for. -/
def NumberText (s : List Char) (d : Decimal) : Prop :=
  ∃ m e ws fs k, s = m ++ e ∧ MantissaText m ws fs ∧ ExponentText e k ∧
    d = lowest ⟨ofDigits (ws ++ fs), k - fs.length⟩

/-- The longest text of a number at the front of `s` stands for `d`, and `r` follows it. -/
def NumberAt (s : List Char) (d : Decimal) (r : List Char) : Prop :=
  ∃ n, s = n ++ r ∧ NumberText n d ∧ ∀ n' d', NumberText n' d' → n' <+: s → n'.length ≤ n.length

variable {s r cs w f m e n : List Char} {c : Char} {v : Nat} {vs ws fs : List Nat} {k : Int}
  {d d' : Decimal}

/-! ## Digits -/

/-- No digit stands at the front. -/
def NoDigit (s : List Char) : Prop := ∀ c r, s = c :: r → Text.digitValue? c = none

theorem noDigit_nil : NoDigit [] := by
  intro c r h
  cases h

theorem noDigit_cons (h : Text.digitValue? c = none) : NoDigit (c :: r) := by
  intro c' r' hc
  cases hc
  exact h

theorem takeDigits_of_noDigit (h : NoDigit s) : takeDigits s = ([], s) := by
  cases s with
  | nil => rfl
  | cons c r => rw [takeDigits, h c r rfl]

theorem takeDigits_append (h : DigitText cs vs) (r : List Char) :
    takeDigits (cs ++ r) = (vs ++ (takeDigits r).1, (takeDigits r).2) := by
  induction h with
  | nil => rfl
  | cons hc _ ih => rw [List.cons_append, takeDigits, hc, ih]; rfl

theorem takeDigits_append_noDigit (h : DigitText cs vs) (hr : NoDigit r) :
    takeDigits (cs ++ r) = (vs, r) := by
  rw [takeDigits_append h, takeDigits_of_noDigit hr, List.append_nil]

/-- What is taken as digits are digits, and no digit is left. -/
theorem takeDigits_spec (s : List Char) :
    ∃ cs, s = cs ++ (takeDigits s).2 ∧ DigitText cs (takeDigits s).1 ∧ NoDigit (takeDigits s).2 := by
  induction s with
  | nil => exact ⟨[], rfl, .nil, noDigit_nil⟩
  | cons c r ih =>
    unfold takeDigits
    cases hc : Text.digitValue? c with
    | none => exact ⟨[], rfl, .nil, noDigit_cons hc⟩
    | some v =>
      obtain ⟨cs, hs, hcs, hn⟩ := ih
      exact ⟨c :: cs, congrArg (c :: ·) hs, .cons hc hcs, hn⟩

theorem length_takeDigits_le (s : List Char) : (takeDigits s).2.length ≤ s.length := by
  obtain ⟨cs, hs, -⟩ := takeDigits_spec s
  have hlen := congrArg List.length hs
  rw [List.length_append] at hlen
  omega

theorem DigitText.append {cs' : List Char} {vs' : List Nat} (h : DigitText cs vs)
    (h' : DigitText cs' vs') : DigitText (cs ++ cs') (vs ++ vs') := by
  induction h with
  | nil => exact h'
  | cons hc _ ih => exact .cons hc ih

/-- Where a digit is due, one stands at the front. -/
theorem DigitText.exists_cons (h : DigitText cs vs) (hne : vs ≠ []) :
    ∃ c v cs', cs = c :: cs' ∧ Text.digitValue? c = some v := by
  cases h with
  | nil => exact absurd rfl hne
  | cons hc _ => exact ⟨_, _, _, rfl, hc⟩

/-! ## Signs and exponents -/

theorem takeSign_of_digit (h : Text.digitValue? c = some v) (r : List Char) :
    takeSign (c :: r) = (false, c :: r) := by
  have hc := Text.toNat_of_digitValue? h
  unfold takeSign
  split
  · cases ‹_ :: _ = _›
    exact absurd hc (by decide)
  · cases ‹_ :: _ = _›
    exact absurd hc (by decide)
  · rfl

theorem takeSign_append {sign : List Char} {negative : Bool} (h : SignText sign negative)
    (hcs : DigitText cs vs) (hne : vs ≠ []) (r : List Char) :
    takeSign (sign ++ (cs ++ r)) = (negative, cs ++ r) := by
  cases h with
  | none =>
    obtain ⟨c, v, cs', rfl, hc⟩ := hcs.exists_cons hne
    exact takeSign_of_digit hc _
  | plus => rfl
  | minus => rfl

/-- The sign that is taken, and what follows it. -/
theorem takeSign_spec (s : List Char) :
    ∃ sign, s = sign ++ (takeSign s).2 ∧ SignText sign (takeSign s).1 := by
  unfold takeSign
  split
  · exact ⟨['-'], rfl, .minus⟩
  · exact ⟨['+'], rfl, .plus⟩
  · exact ⟨[], rfl, .none⟩

theorem length_scanExponent_le (s : List Char) : (scanExponent s).2.length ≤ s.length := by
  cases s with
  | nil => exact Nat.le_refl _
  | cons c r =>
    obtain ⟨sign, hr, -⟩ := takeSign_spec r
    have hlen := congrArg List.length hr
    have hle := length_takeDigits_le (takeSign r).2
    rw [List.length_append] at hlen
    simp only [scanExponent]
    split
    · split
      · exact Nat.le_refl _
      · rename_i heq
        rw [heq] at hle
        simp only [List.length_cons] at hle ⊢
        omega
    · exact Nat.le_refl _

theorem scanExponent_of_unmarked (h : c ≠ 'e' ∧ c ≠ 'E') : scanExponent (c :: r) = (0, c :: r) := by
  simp [scanExponent, h.1, h.2]

theorem scanExponent_marked {sign : List Char} {negative : Bool} (hc : c = 'e' ∨ c = 'E')
    (hs : SignText sign negative) (hcs : DigitText cs vs) (hne : vs ≠ []) (r : List Char) :
    scanExponent (c :: (sign ++ cs) ++ r) =
      (if negative then -(ofDigits (vs ++ (takeDigits r).1) : Int)
        else ofDigits (vs ++ (takeDigits r).1), (takeDigits r).2) := by
  have hmark : (c = 'e' || c = 'E') = true := by simpa using hc
  have htake := takeDigits_append hcs r
  rw [List.cons_append, List.append_assoc]
  simp only [scanExponent, hmark, takeSign_append hs hcs hne, htake]
  cases vs with
  | nil => exact absurd rfl hne
  | cons v vs => rfl

/-- The exponent that is taken, and what follows it. -/
theorem scanExponent_spec (s : List Char) :
    ∃ e, s = e ++ (scanExponent s).2 ∧ ExponentText e (scanExponent s).1 := by
  cases s with
  | nil => exact ⟨[], rfl, .none⟩
  | cons c r =>
    by_cases hmark : (c = 'e' || c = 'E') = true
    · obtain ⟨sign, hr, hsign⟩ := takeSign_spec r
      obtain ⟨cs, hcs, hdigits, -⟩ := takeDigits_spec (takeSign r).2
      simp only [scanExponent, if_pos hmark]
      split
      · exact ⟨[], rfl, .none⟩
      · rename_i heq
        rw [heq] at hcs hdigits
        refine ⟨c :: (sign ++ cs), ?_, .marked (by simpa using hmark) hsign hdigits ?_⟩
        · rw [List.cons_append, List.append_assoc, ← hcs, ← hr]
        · intro hnil
          exact absurd hnil (by simpa using ‹_›)
    · simp only [scanExponent, if_neg hmark]
      exact ⟨[], rfl, .none⟩

/-! ## Mantissas -/

theorem scanMantissa?_whole (h : takeDigits s = (ws, r)) (hne : ws ≠ []) (hr : ∀ x, r ≠ '.' :: x) :
    scanMantissa? s = some (ws, [], r) := by
  unfold scanMantissa?
  rw [h]
  split
  · cases ‹(_, _) = (_, _)›
    exact absurd rfl hne
  · cases ‹(_, _) = (_, _)›
    exact absurd rfl hne
  · cases ‹(_, _) = (_, _)›
    exact absurd rfl (hr _)
  · cases ‹(_, _) = (_, _)›
    rfl

theorem scanMantissa?_pointed (h : takeDigits s = (ws, '.' :: r)) (hne : ws ≠ []) :
    scanMantissa? s = some (ws, (takeDigits r).1, (takeDigits r).2) := by
  unfold scanMantissa?
  rw [h]
  cases ws with
  | nil => exact absurd rfl hne
  | cons v vs => rfl

theorem scanMantissa?_fraction (h : takeDigits s = ([], '.' :: r)) (hne : (takeDigits r).1 ≠ []) :
    scanMantissa? s = some ([], (takeDigits r).1, (takeDigits r).2) := by
  unfold scanMantissa?
  rw [h]
  rcases hr : takeDigits r with ⟨_ | ⟨v, vs⟩, x⟩
  · rw [hr] at hne
    exact absurd rfl hne
  · simp only [hr]

/-- The mantissa that is taken, and what follows it. -/
theorem scanMantissa?_spec (h : scanMantissa? s = some (ws, fs, r)) :
    ∃ m, s = m ++ r ∧ MantissaText m ws fs := by
  obtain ⟨w, hs, hw, -⟩ := takeDigits_spec s
  unfold scanMantissa? at h
  split at h
  · rename_i x hx
    rw [hx] at hs hw
    obtain ⟨f, hx', hf, -⟩ := takeDigits_spec x
    split at h
    · cases h
    · rename_i hne heq
      cases h
      rw [heq] at hx' hf
      cases hw
      exact ⟨'.' :: f, by rw [hs, hx']; rfl, .fraction hf hne⟩
  · cases h
  · rename_i ws' x hne hx
    rw [hx] at hs hw
    obtain ⟨f, hx', hf, -⟩ := takeDigits_spec x
    cases h
    exact ⟨w ++ '.' :: f, by rw [List.append_assoc, List.cons_append, ← hx', ← hs], .pointed hw hne hf⟩
  · rename_i hne _ hx
    rw [hx] at hs hw
    cases h
    exact ⟨w, hs, .whole hw hne⟩

/-- Nothing at the front could belong to a mantissa. -/
def NoMantissa (s : List Char) : Prop := NoDigit s ∧ ∀ r, s ≠ '.' :: r

theorem noMantissa_cons (h : Text.digitValue? c = none) (hc : c ≠ '.') : NoMantissa (c :: r) :=
  ⟨noDigit_cons h, fun _ heq => hc (List.head_eq_of_cons_eq heq)⟩

theorem noMantissa_mark (h : c = 'e' ∨ c = 'E') : NoMantissa (c :: r) := by
  rcases h with rfl | rfl <;> exact noMantissa_cons rfl (by decide)

/-- A mantissa is taken whole from before anything that cannot belong to it. -/
theorem scanMantissa?_append (h : MantissaText m ws fs) (hr : NoMantissa r) :
    scanMantissa? (m ++ r) = some (ws, fs, r) := by
  obtain ⟨hdigit, hpoint⟩ := hr
  cases h with
  | whole hw hne => exact scanMantissa?_whole (takeDigits_append_noDigit hw hdigit) hne hpoint
  | pointed hw hne hf =>
    rw [List.append_assoc, List.cons_append]
    rw [scanMantissa?_pointed (takeDigits_append_noDigit hw (noDigit_cons rfl)) hne,
      takeDigits_append_noDigit hf hdigit]
  | fraction hf hne =>
    have htake := takeDigits_append_noDigit hf hdigit
    rw [List.cons_append, scanMantissa?_fraction (takeDigits_of_noDigit (noDigit_cons rfl)), htake]
    rw [htake]
    exact hne

/-- A mantissa at the front is never cut short. -/
theorem exists_scanMantissa? (h : MantissaText m ws fs) (r : List Char) :
    ∃ ws' fs' r', scanMantissa? (m ++ r) = some (ws', fs', r') ∧ r'.length ≤ r.length := by
  have hle := length_takeDigits_le r
  cases h with
  | whole hw hne =>
    have htake := takeDigits_append hw r
    have hne' : ws ++ (takeDigits r).1 ≠ [] := fun h => hne (List.append_eq_nil_iff.mp h).1
    by_cases hpoint : ∃ x, (takeDigits r).2 = '.' :: x
    · obtain ⟨x, hx⟩ := hpoint
      rw [hx] at htake hle
      have hx' := length_takeDigits_le x
      rw [List.length_cons] at hle
      exact ⟨_, _, _, scanMantissa?_pointed htake hne', by omega⟩
    · exact ⟨_, _, _, scanMantissa?_whole htake hne' fun x hx => hpoint ⟨x, hx⟩, hle⟩
  | @pointed w f ws fs hw hne hf =>
    have htake := takeDigits_append_noDigit hw (noDigit_cons (c := '.') (r := f ++ r) rfl)
    rw [List.append_assoc, List.cons_append, scanMantissa?_pointed htake hne, takeDigits_append hf]
    exact ⟨_, _, _, rfl, hle⟩
  | @fraction f fs hf hne =>
    have htake := takeDigits_of_noDigit (noDigit_cons (c := '.') (r := f ++ r) rfl)
    have hne' : (takeDigits (f ++ r)).1 ≠ [] := by
      rw [takeDigits_append hf]
      exact fun h => hne (List.append_eq_nil_iff.mp h).1
    rw [List.cons_append, scanMantissa?_fraction htake hne', takeDigits_append hf]
    exact ⟨_, _, _, rfl, hle⟩

/-! ## Numbers -/

/-- Nothing at the front could belong to a number. -/
def NoNumber (s : List Char) : Prop := NoMantissa s ∧ ∀ r, s ≠ 'e' :: r ∧ s ≠ 'E' :: r

theorem noNumber_nil : NoNumber [] :=
  ⟨⟨noDigit_nil, fun _ => List.cons_ne_nil _ _ |>.symm⟩,
    fun _ => ⟨(List.cons_ne_nil _ _).symm, (List.cons_ne_nil _ _).symm⟩⟩

theorem noNumber_cons (h : Text.digitValue? c = none) (hc : c ≠ '.' ∧ c ≠ 'e' ∧ c ≠ 'E') :
    NoNumber (c :: r) :=
  ⟨noMantissa_cons h hc.1, fun _ => ⟨fun heq => hc.2.1 (List.head_eq_of_cons_eq heq),
    fun heq => hc.2.2 (List.head_eq_of_cons_eq heq)⟩⟩

theorem noMantissa_of_exponentText (h : ExponentText e k) (hr : NoMantissa r) :
    NoMantissa (e ++ r) := by
  cases h with
  | none => exact hr
  | marked hc => exact noMantissa_mark hc

theorem scanExponent_of_noNumber (h : NoNumber r) : scanExponent r = (0, r) := by
  cases r with
  | nil => rfl
  | cons c r =>
    have hc := h.2 r
    exact scanExponent_of_unmarked ⟨fun h => hc.1 (h ▸ rfl), fun h => hc.2 (h ▸ rfl)⟩

theorem scanExponent_append (h : ExponentText e k) (hr : NoNumber r) :
    scanExponent (e ++ r) = (k, r) := by
  cases h with
  | none => exact scanExponent_of_noNumber hr
  | marked hc hsign hdigits hne =>
    rw [scanExponent_marked hc hsign hdigits hne, takeDigits_of_noDigit hr.1.1, List.append_nil]

/-- **A number is read whole** from before anything that cannot belong to it. -/
theorem scan?_append (h : NumberText n d) (hr : NoNumber r) : scan? (n ++ r) = some (d, r) := by
  obtain ⟨m, e, ws, fs, k, rfl, hm, he, rfl⟩ := h
  unfold scan?
  rw [List.append_assoc, scanMantissa?_append hm (noMantissa_of_exponentText he hr.1)]
  simp only [Option.map_some, scanExponent_append he hr]

/-- A number begins with a digit or a point. -/
theorem NumberText.exists_cons (h : NumberText n d) :
    ∃ c r, n = c :: r ∧ (Text.isDigit c = true ∨ c = '.') := by
  obtain ⟨m, e, ws, fs, k, rfl, hm, -⟩ := h
  cases hm with
  | whole hw hne =>
    obtain ⟨c, v, cs, rfl, hc⟩ := hw.exists_cons hne
    exact ⟨c, _, rfl, .inl (by rw [Text.isDigit, hc]; rfl)⟩
  | pointed hw hne =>
    obtain ⟨c, v, cs, rfl, hc⟩ := hw.exists_cons hne
    exact ⟨c, _, rfl, .inl (by rw [Text.isDigit, hc]; rfl)⟩
  | fraction => exact ⟨'.', _, rfl, .inr rfl⟩

/-- A text is the text of one number at most. -/
theorem NumberText.unique (h : NumberText n d) (h' : NumberText n d') : d = d' := by
  have hscan := scan?_append h noNumber_nil
  rw [scan?_append h' noNumber_nil] at hscan
  cases hscan
  rfl

theorem scan?_spec (h : scan? s = some (d, r)) : ∃ n, s = n ++ r ∧ NumberText n d := by
  obtain ⟨⟨ws, fs, x⟩, hscan, hd⟩ := Option.map_eq_some_iff.mp h
  obtain ⟨m, rfl, hm⟩ := scanMantissa?_spec hscan
  obtain ⟨e, hx, he⟩ := scanExponent_spec x
  rcases hexp : scanExponent x with ⟨k, y⟩
  rw [hexp] at hx he
  simp only [hexp, Prod.mk.injEq] at hd
  obtain ⟨rfl, rfl⟩ := hd
  exact ⟨m ++ e, by rw [List.append_assoc, ← hx], m, e, ws, fs, k, rfl, hm, he, rfl⟩

/-- A number at the front is never cut short. -/
theorem exists_scan? (h : NumberText n d) (r : List Char) :
    ∃ d' r', scan? (n ++ r) = some (d', r') ∧ r'.length ≤ r.length := by
  obtain ⟨m, e, ws, fs, k, rfl, hm, he, rfl⟩ := h
  unfold scan?
  rw [List.append_assoc]
  cases he with
  | none =>
    obtain ⟨ws', fs', x, hscan, hx⟩ := exists_scanMantissa? hm r
    rw [List.nil_append, hscan]
    exact ⟨_, _, rfl, Nat.le_trans (length_scanExponent_le x) hx⟩
  | marked hc hsign hdigits hne =>
    rw [List.cons_append, scanMantissa?_append hm (noMantissa_mark hc), ← List.cons_append]
    simp only [Option.map_some, scanExponent_marked hc hsign hdigits hne]
    exact ⟨_, _, rfl, length_takeDigits_le r⟩

/-- **The scanner finds the longest number** at the front of a text. -/
theorem scan?_eq_some_iff : scan? s = some (d, r) ↔ NumberAt s d r := by
  constructor
  · intro h
    obtain ⟨n, rfl, hn⟩ := scan?_spec h
    refine ⟨n, rfl, hn, ?_⟩
    rintro n' d' hn' ⟨r', hr'⟩
    obtain ⟨d'', r'', hscan, hle⟩ := exists_scan? hn' r'
    rw [hr', h] at hscan
    cases hscan
    have hlen := congrArg List.length hr'
    simp only [List.length_append] at hlen
    omega
  · rintro ⟨n, rfl, hn, hmax⟩
    obtain ⟨d', r', hscan, hle⟩ := exists_scan? hn r
    obtain ⟨n', hn', hnum⟩ := scan?_spec hscan
    have hlen := congrArg List.length hn'
    have hle' := hmax n' d' hnum ⟨r', hn'.symm⟩
    simp only [List.length_append] at hlen
    obtain ⟨rfl, rfl⟩ := List.append_inj hn' (by omega)
    rw [hscan, hnum.unique hn]

end Decimal

end Fluxion
