import Fluxion.Proofs.Audit
import Fluxion.Proofs.PolishRoundTrip

/-!
# The grammar of Polish notation

A text is cut into tokens: a bracket is one, a longest word is one, and blanks are between them. The
tokens spell a tree if they are

* `nil`, for the empty tree;
* an opening bracket, a value, two trees and a closing bracket, for a node with that value in whose
  slots these trees are. The symbol of an operation of two arguments has both slots filled, that of an
  operation of one argument the left slot only; a letter and a number have both empty.

The relations below say so, and the reader accepts the same texts:

* `Polish.Cut` are the tokens of a text, and `Polish.tokens_eq_iff` says that the reader finds them.
* `Polish.IsNode` and `Polish.Spelling` are the rules for nodes and for trees, and `Polish.Sentence` the
  texts that spell a tree.
* `Polish.spelling_of_tree`: what is read is spelled by the tokens taken for it.
* `Polish.Spelling.spells`: a spelling is read as its tree, whatever follows.
* `Work.readPolish_sentence`: a text is made into an expression with its tree if it spells one, and
  refused as malformed at one of its tokens, or at its end, otherwise.
-/

namespace Fluxion

open Act

/-! ## Numbers -/

namespace Numeral

/-- No number is spelled like a symbol. -/
theorem read?_symbol (op : Operation) : read? op.symbol.toList = none := by
  cases op <;> decide +kernel

/-- No number is spelled like a letter. -/
theorem read?_letter {c : Char} (h : c.isAlpha = true) : read? [c] = none := by
  have hscan (d : Decimal) : Decimal.scan? [c] ≠ some (d, []) := by
    intro hd
    obtain ⟨n, hn, hnumber⟩ := Decimal.scan?_spec hd
    rw [List.append_nil] at hn
    obtain ⟨c', r, hcons, hc'⟩ := hnumber.exists_cons
    rw [← hn] at hcons
    cases hcons
    rcases hc' with hdigit | rfl
    · obtain ⟨v, hv⟩ := Option.isSome_iff_exists.mp hdigit
      rw [Text.isAlpha_of_digitValue? hv] at h
      cases h
    · cases h
  have hword (w : String) (hw : w.length ≠ 1) : String.ofList ([c].map Char.toLower) ≠ w := by
    rintro rfl
    simp at hw
  have hunsigned : readUnsigned? [c] = none := by
    unfold readUnsigned?
    split
    · exact absurd ‹_› (hscan _)
    · have hinfinite := not_or.mpr ⟨hword "inf" (by decide), hword "infinity" (by decide)⟩
      dsimp only
      rw [if_neg (by simpa using hinfinite), if_neg (hword "nan" (by decide))]
  have hdrop : dropUnderscores? false [c] = some [c] := by
    have hc : c ≠ '_' := by
      rintro rfl
      cases h
    rw [dropUnderscores?_eq (by simpa using hc.symm)]
  have hsign : Decimal.takeSign [c] = (false, [c]) := by
    unfold Decimal.takeSign
    split
    · rename_i heq
      cases heq
      cases h
    · rename_i heq
      cases heq
      cases h
    · rfl
  rw [read?, hdrop, Option.bind_some, hsign]
  dsimp only
  rw [hunsigned, Option.map_none]

end Numeral

namespace Polish

/-! ## Tokens -/

/-- No word goes on in `s`. -/
def Stops (s : List Char) : Prop := ∀ c r, s = c :: r → Text.isBlank c = true ∨ c = '(' ∨ c = ')'

theorem stops_nil : Stops [] := nofun

/-- The tokens of a text that begins at position `p`. -/
inductive Cut : Nat → List Char → List Token → Prop
  | done {p : Nat} : Cut p [] []
  | blank {p : Nat} {c : Char} {s : List Char} {ts : List Token} (hc : Text.isBlank c = true)
      (h : Cut (p + 1) s ts) : Cut p (c :: s) ts
  | bracket {p : Nat} {c : Char} {s : List Char} {ts : List Token} (hc : c = '(' ∨ c = ')')
      (h : Cut (p + 1) s ts) : Cut p (c :: s) (⟨[c], p⟩ :: ts)
  | word {p : Nat} {cs s : List Char} {ts : List Token} (hcs : IsWord cs) (hs : Stops s)
      (h : Cut (p + cs.length) s ts) : Cut p (cs ++ s) (⟨cs, p⟩ :: ts)

variable {p : Nat} {word s : List Char} {ts : List Token}

theorem wordToken_reverse {cs : List Char} (h : cs ≠ []) (p : Nat) :
    wordToken cs.reverse (p + cs.length) = [⟨cs, p⟩] := by
  unfold wordToken
  split
  · exact absurd (List.reverse_eq_nil_iff.mp ‹_›) h
  · rename_i hcons
    rw [← hcons, List.reverse_reverse, List.length_reverse, Nat.add_sub_cancel]

/-- Where no word goes on, the one under way is complete. -/
theorem tokensFrom_of_stops (h : Stops s) (word : List Char) (p : Nat) :
    tokensFrom word p s = wordToken word p ++ tokensFrom [] p s := by
  cases s with
  | nil => exact (List.append_nil _).symm
  | cons c r =>
    unfold tokensFrom
    split
    · rfl
    · split
      · rfl
      · rename_i hblank hbracket
        exact absurd (h c r rfl) (by simpa [hblank] using hbracket)

theorem tokensFrom_of_cut (h : Cut p s ts) : tokensFrom [] p s = ts := by
  induction h with
  | done => rfl
  | blank hc _ ih =>
    rw [tokensFrom, if_pos hc, ih]
    rfl
  | @bracket p c s ts hc _ ih =>
    have hblank : ¬Text.isBlank c = true := by rcases hc with rfl | rfl <;> decide
    rw [tokensFrom, if_neg hblank, if_pos (by simpa using hc), ih]
    rfl
  | word hcs hs _ ih =>
    rw [tokensFrom_word hcs.2, List.append_nil, tokensFrom_of_stops hs, wordToken_reverse hcs.1, ih]
    rfl

/-- A word under way is cut off where no word goes on. -/
theorem Cut.complete (h : Cut (p + word.length) s ts) (hs : Stops s)
    (hword : ∀ c ∈ word, Text.isBlank c = false ∧ c ≠ '(' ∧ c ≠ ')') :
    Cut p (word ++ s) (wordToken word.reverse (p + word.length) ++ ts) := by
  by_cases hne : word = []
  · rw [hne] at h ⊢
    exact h
  · rw [wordToken_reverse hne]
    exact .word ⟨hne, hword⟩ hs h

theorem cut_tokensFrom (word : List Char)
    (hword : ∀ c ∈ word, Text.isBlank c = false ∧ c ≠ '(' ∧ c ≠ ')') (p : Nat) (s : List Char) :
    Cut p (word ++ s) (tokensFrom word.reverse (p + word.length) s) := by
  induction s generalizing word p with
  | nil =>
    rw [tokensFrom, ← List.append_nil (wordToken _ _)]
    exact Cut.done.complete stops_nil hword
  | cons c r ih =>
    have hnext := ih [] (List.forall_mem_nil _) (p + word.length + 1)
    rw [tokensFrom]
    split
    · rename_i hblank
      refine Cut.complete (.blank hblank hnext) ?_ hword
      rintro c' r' ⟨⟩
      exact .inl hblank
    · split
      · rename_i hbracket
        rw [Bool.or_eq_true, decide_eq_true_iff, decide_eq_true_iff] at hbracket
        refine Cut.complete (.bracket hbracket hnext) ?_ hword
        rintro c' r' ⟨⟩
        exact .inr hbracket
      · rename_i hblank hbracket
        have hc : Text.isBlank c = false ∧ c ≠ '(' ∧ c ≠ ')' := by
          simpa [not_or] using And.intro hblank hbracket
        have hlonger := ih (word ++ [c])
          (List.forall_mem_append.mpr ⟨hword, List.forall_mem_singleton.mpr hc⟩) p
        simpa [Nat.add_assoc] using hlonger

/-- **The reader finds the tokens of a text.** -/
theorem tokens_eq_iff : tokens s = ts ↔ Cut 0 s ts := by
  refine ⟨?_, tokensFrom_of_cut⟩
  rintro rfl
  exact cut_tokensFrom [] (List.forall_mem_nil _) 0 s

/-! ## The rules -/

variable {κ : Type} [Literal κ]

/-- A value and what is in its two slots make a node. -/
inductive IsNode : List Char → Tree κ → Tree κ → Tree κ → Prop
  | two {op : Operation} {l r : Tree κ} (ho : op.arity = 2) (hl : l.isAbsent = false)
      (hr : r.isAbsent = false) : IsNode op.symbol.toList l r (.apply₂ op l r)
  | one {op : Operation} {x : Tree κ} (ho : op.arity = 1) (hx : x.isAbsent = false) :
      IsNode op.symbol.toList x .absent (.apply₁ op x)
  | letter {c : Char} (hc : c.isAlpha = true) :
      IsNode [c] .absent .absent (.var (some (String.ofList [c])))
  | number {cs : List Char} {n : Numeral} (hn : Numeral.read? cs = some n) :
      IsNode cs .absent .absent (.literal (Literal.ofNumeral n))

/-- Tokens spell a tree. -/
inductive Spelling : List Token → Tree κ → Prop
  | empty {u : Token} (hu : u.chars = nilToken) : Spelling [u] .absent
  | node {o value b : Token} {ls rs : List Token} {l r t : Tree κ} (ho : o.chars = openToken)
      (hl : Spelling ls l) (hr : Spelling rs r) (ht : IsNode value.chars l r t)
      (hb : b.chars = closeToken) : Spelling (o :: value :: (ls ++ rs ++ [b])) t

/-- A text spells a tree. -/
def Sentence (s : List Char) (t : Tree κ) : Prop := ∃ ts, Cut 0 s ts ∧ Spelling ts t

/-! ## What is read is spelled -/

variable {value : Token} {l r t : Tree κ} {rest : List Token} {levels : Nat}

theorem isNode_of_build (h : build value l r = .ok t) : IsNode value.chars l r t := by
  have habsent {x : Tree κ} (hx : x.isAbsent = true) : x = .absent := by
    cases x with
    | absent => rfl
    | _ => cases hx
  unfold build at h
  dsimp only at h
  split at h
  · cases h
  · split at h
    · rename_i op hop
      have hsymbol : op.symbol.toList = value.chars := by
        have := List.find?_some hop
        rw [beq_iff_eq] at this
        rw [this, Token.text, String.toList_ofList]
      rw [← hsymbol]
      split at h
      · split at h
        · cases h
        · rename_i htwo hfilled
          cases h
          simp only [Bool.or_eq_true, not_or, Bool.not_eq_true] at hfilled
          exact .two htwo hfilled.1 hfilled.2
      · split at h
        · cases h
        · rename_i htwo hfilled
          cases h
          simp only [Bool.or_eq_true, not_or, Bool.not_eq_true, Bool.not_eq_false'] at hfilled
          rw [habsent hfilled.2]
          exact .one (op.arity_eq.resolve_right htwo) hfilled.1
    · split at h
      · cases h
      · rename_i hempty
        simp only [Bool.or_eq_true, not_or, Bool.not_eq_true, Bool.not_eq_false'] at hempty
        rw [habsent hempty.1, habsent hempty.2]
        split at h
        · rename_i hletter
          cases h
          obtain ⟨c, hc, halpha⟩ := Name.exists_letter hletter
          rw [Name.shown, Token.text, String.toList_ofList] at hc
          rw [Token.text, hc]
          exact .letter halpha
        · split at h
          · cases h
            exact .number ‹_›
          · cases h

theorem close_eq_ok (h : close value l r ts = .ok (t, rest)) :
    ∃ b : Token, ts = b :: rest ∧ IsNode value.chars l r t ∧ b.chars = closeToken := by
  unfold close at h
  split at h
  · cases h
  · split at h
    · cases h
    · split at h
      · cases h
        exact ⟨_, rfl, isNode_of_build ‹_›, ‹_›⟩
      · cases h

/-- **What is read is spelled** by the tokens taken for it. -/
theorem spelling_of_tree (h : tree levels ts = .ok (t, rest)) :
    ∃ us, ts = us ++ rest ∧ Spelling us t := by
  induction levels generalizing ts t rest with
  | zero => cases h
  | succ levels ih =>
    cases ts with
    | nil => cases h
    | cons u ts =>
      unfold tree at h
      split at h
      · rename_i ho
        split at h
        · cases h
        · split at h
          · cases h
          · rename_i hleft
            obtain ⟨ls, rfl, hl⟩ := ih hleft
            split at h
            · cases h
            · rename_i hright
              obtain ⟨rs, rfl, hr⟩ := ih hright
              obtain ⟨b, rfl, ht, hb⟩ := close_eq_ok h
              exact ⟨_, by simp, .node ho hl hr ht hb⟩
      · split at h
        · cases h
          exact ⟨[u], rfl, .empty ‹_›⟩
        · cases h

/-! ## What is spelled is read -/

theorem build_of_isNode (h : IsNode value.chars l r t) : build value l r = .ok t := by
  generalize hv : value.chars = cs at h
  cases h with
  | two ho hl hr => exact build_apply₂ hv ho hl hr
  | one ho hx => exact build_apply₁ hv ho hx
  | letter hc =>
    refine build_var (n := some _) (by rw [hv, Name.shown, String.toList_ofList]) ?_
    rw [Name.isLetter, String.toList_ofList]
    exact hc
  | number hn =>
    have hletter : Name.isLetter (some value.text) = false := by
      rw [Bool.eq_false_iff]
      intro hletter
      obtain ⟨c, hc, halpha⟩ := Name.exists_letter hletter
      rw [Name.shown, Token.text, String.toList_ofList, hv] at hc
      rw [hc, Numeral.read?_letter halpha] at hn
      cases hn
    have hop : ∀ op : Operation, op.symbol.toList ≠ value.chars := by
      rintro op heq
      rw [← hv, ← heq, Numeral.read?_symbol] at hn
      cases hn
    have hbracket : value.chars ≠ openToken ∧ value.chars ≠ closeToken := by
      rw [hv]
      constructor <;> rintro rfl <;> cases hn
    rw [build_leaf hop hbracket, hletter, hv, hn]
    rfl

/-- **What is spelled is read**, whatever follows. -/
theorem Spelling.spells (h : Spelling ts t) : ∃ n < ts.length, Spells n ts t := by
  induction h with
  | empty hu => exact ⟨0, Nat.zero_lt_one, spells_nil hu⟩
  | node ho _ _ ht hb ihl ihr =>
    obtain ⟨m, hm, hl⟩ := ihl
    obtain ⟨n, hn, hr⟩ := ihr
    refine ⟨_, ?_, hl.node ho hr (build_of_isNode ht) hb⟩
    simp only [List.length_cons, List.length_append, List.length_nil]
    omega

theorem parse_eq_ok_iff : parse s = .ok t ↔ Sentence s t := by
  have hcut : Cut 0 s (tokens s) := tokens_eq_iff.mp rfl
  constructor
  · intro h
    unfold parse at h
    dsimp only at h
    split at h
    · cases h
    · rename_i htree
      cases h
      obtain ⟨us, hus, ht⟩ := spelling_of_tree htree
      rw [List.append_nil] at hus
      exact ⟨us, hus ▸ hcut, ht⟩
    · cases h
  · rintro ⟨ts, hts, ht⟩
    obtain rfl := tokens_eq_iff.mpr hts
    obtain ⟨n, hn, hspells⟩ := ht.spells
    have htree := hspells ((tokens s).length + 1) [] (by omega)
    rw [List.append_nil] at htree
    unfold parse
    dsimp only
    rw [htree]

/-! ## Where a text is refused -/

theorem suffix_of_close {f : Failure} (h : close value l r ts = .error f) : f.rest <:+ ts := by
  unfold close at h
  split at h
  · cases h
    exact List.suffix_refl _
  · split at h
    · cases h
      exact List.suffix_refl _
    · split at h
      · cases h
      · cases h
        exact List.suffix_refl _

/-- What is left where a tree does not read is the end of what was there. -/
theorem suffix_of_tree {f : Failure} (h : (tree levels ts : Except Failure (Tree κ × List Token)) = .error f) : f.rest <:+ ts := by
  induction levels generalizing ts f with
  | zero =>
    cases h
    exact List.suffix_refl _
  | succ levels ih =>
    cases ts with
    | nil =>
      cases h
      exact List.suffix_refl _
    | cons u ts =>
      unfold tree at h
      split at h
      · split at h
        · cases h
          exact List.nil_suffix
        · rename_i value ts
          have hbehind : ts <:+ u :: value :: ts := ⟨[u, value], rfl⟩
          split at h
          · cases h
            exact (ih ‹_›).trans hbehind
          · rename_i hl
            obtain ⟨ls, rfl, -⟩ := spelling_of_tree hl
            have hbehind := (List.suffix_append ls _).trans hbehind
            split at h
            · rename_i hr
              cases h
              exact (ih hr).trans hbehind
            · rename_i hr
              obtain ⟨rs, rfl, -⟩ := spelling_of_tree hr
              exact (suffix_of_close h).trans ((List.suffix_append rs _).trans hbehind)
      · split at h
        · cases h
        · cases h
          exact List.suffix_refl _

theorem suffix_of_parse {f : Failure} (h : (parse s : Except Failure (Tree κ)) = .error f) : f.rest <:+ tokens s := by
  unfold parse at h
  dsimp only at h
  split at h
  · cases h
    exact suffix_of_tree ‹_›
  · cases h
  · rename_i htree
    cases h
    obtain ⟨us, hus, -⟩ := spelling_of_tree htree
    exact ⟨us, hus.symm⟩

/-- A position is that of a token of a text, or of its end. -/
def IsPosition (s : List Char) (position : Nat) : Prop :=
  position = s.length ∨ ∃ ts, Cut 0 s ts ∧ ∃ u ∈ ts, u.start = position

/-- **A text is refused at one of its tokens or at its end.** -/
theorem fault_of_parse {text : String} {f : Failure}
    (h : (parse text.toList : Except Failure (Tree κ)) = .error f) :
    ∃ position, f.fault text = .malformed f.complaint position text ∧
      IsPosition text.toList position := by
  have hsuffix := suffix_of_parse h
  unfold Failure.fault
  cases hrest : f.rest with
  | nil => exact ⟨_, rfl, .inl rfl⟩
  | cons u us =>
    rw [hrest] at hsuffix
    exact ⟨_, rfl, .inr ⟨_, tokens_eq_iff.mp rfl, u, hsuffix.subset List.mem_cons_self, rfl⟩⟩

end Polish

/-! ## Reading into the store -/

namespace Work

variable {κ : Type} [Literal κ] {w : Workspace κ}

/-- **Reading a text in Polish notation.** A text that spells a tree becomes an expression with that tree,
the only one it spells, and there is nothing wrong with it. Every other text is refused as malformed at
the start of one of its tokens or at its end. -/
theorem readPolish_sentence (h : w.store.StrictlyOwned) (text : String) :
    (readPolish text).Ensures w
      (fun e w' => (∀ t : Tree κ, Polish.Sentence text.toList t ↔ t = w'.store.expressionTree e) ∧
        w'.store.isSound (w'.store.root? e) = true)
      fun f _ => (∀ t : Tree κ, ¬Polish.Sentence text.toList t) ∧
        ∃ complaint position, f = .malformed complaint position text ∧
          Polish.IsPosition text.toList position := by
  obtain ⟨b, own, h⟩ := h.holds
  cases hp : (Polish.parse text.toList : Except (Polish.Failure) (Tree κ)) with
  | ok t =>
    refine (readPolish_of_ok h hp).ensures.mono ?_ fun _ _ => id
    rintro e w' ⟨q, rfl, hq⟩
    have hmem : (e, q) ∈ (e, q) :: own := List.mem_cons_self
    refine ⟨fun t => ?_, ?_⟩
    · rw [hq.expressionTree_eq hmem, ← Polish.parse_eq_ok_iff, hp]
      exact ⟨fun ht => (Except.ok.inj ht).symm, fun ht => ht ▸ rfl⟩
    · rw [hq.root?_eq hmem]
      exact Store.isSound_of_valid (hq.stands hmem) hq.accounted.toApart (Polish.valid_of_parse hp)
  | error failure =>
    refine (readPolish_of_error h hp).mono (fun _ _ => id) ?_
    rintro _ w' ⟨rfl, -⟩
    obtain ⟨position, hfault, hposition⟩ := Polish.fault_of_parse hp
    refine ⟨fun t ht => ?_, _, position, hfault, hposition⟩
    rw [← Polish.parse_eq_ok_iff, hp] at ht
    cases ht

/-- A sum without its second operand is not spelled like a sine. -/
theorem readPolish_sine :
    (Store.stocked 4 2 : Store Float).StrictlyOwned ∧
      (∃ t : Tree Float, Polish.Sentence "(sin( 1_0e2 nil nil )nil)".toList t) ∧
      ∀ t : Tree Float, ¬Polish.Sentence "(+( x nil nil )nil)".toList t := by
  let w : Workspace Float := ⟨.stocked 4 2, .opened .minimal, []⟩
  have howned : w.store.StrictlyOwned := Store.stocked_strictlyOwned 4 2
  have hok : ((readPolish "(sin( 1_0e2 nil nil )nil)").perform w).1 = .ok ⟨0⟩ := by decide +kernel
  have herror : ((readPolish "(+( x nil nil )nil)").perform w).1 =
      .error (.malformed (.wantsTwoOperands "+") 18 "(+( x nil nil )nil)") := by decide +kernel
  -- the texts are hidden, or matching statements would read them
  generalize "(sin( 1_0e2 nil nil )nil)" = text at hok ⊢
  generalize "(+( x nil nil )nil)" = refused at herror ⊢
  refine ⟨howned, ?_, ?_⟩
  · exact ⟨_, (((readPolish_sentence howned text).of_ok (Prod.ext hok rfl)).1 _).mpr rfl⟩
  · exact ((readPolish_sentence howned refused).of_error (Prod.ext herror rfl)).1

end Work

end Fluxion
