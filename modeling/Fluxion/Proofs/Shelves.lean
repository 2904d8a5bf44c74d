import Fluxion.Proofs.PlainTable
import Fluxion.Shelf

/-!
# Tables that do not share

Tables on a shelf are as good as values: no call on one of them changes another, since no two of them
have anything at the same place. A list of plain tables therefore answers every call as the shelf does.

* `Shelf.Shows` relates a shelf to a list of plain tables: each table represents its plain one, and the
  places of any two are apart.
* `Shelf.rewrite_spec` and `Shelf.add_spec` say what changing a table and adding one leave as it was.
* `TableCall.act_follows` is one call, and `Shelf.serve_eq` is any number of calls.
-/

namespace Fluxion

/-- A shelf of plain tables, in the order in which they were made. -/
structure PlainShelf (κ : Type) where
  tables : List (PlainTable κ)

namespace PlainShelf

variable {κ α : Type} (s : PlainShelf κ)

/-- What comes of asking for a table; there is no answer where there is no such table. -/
def at? (i : Nat) (f : PlainTable κ → Except Fault α) : Except Fault (Option α) :=
  match s.tables[i]? with
  | some p => (f p).map some
  | none => .ok none

/-- The shelf with one table changed. -/
def change (i : Nat) (f : PlainTable κ → PlainTable κ) : PlainShelf κ := ⟨s.tables.modify i f⟩

/-- What a call answers. -/
def answer : TableCall κ → Except Fault (Option (TableAnswer κ))
  | .make capacity => if 1 ≤ capacity then .ok (some .done) else .error .noCapacity
  | .set i name _ => s.at? i fun _ => (PlainTable.verdict name).map fun _ => .done
  | .update i pairs => s.at? i fun _ => (PlainTable.verdictOfAll pairs).map fun _ => .done
  | .copy i => s.at? i fun _ => .ok .done
  | .ask i question => s.at? i fun p => p.reply question

/-- The shelf after a call: a table that is set changes, and a new one comes last. -/
def next : TableCall κ → PlainShelf κ
  | .make capacity => if h : 1 ≤ capacity then ⟨s.tables ++ [.empty h]⟩ else s
  | .set i name value => s.change i (·.assign name value)
  | .update i pairs => s.change i (·.assignAll pairs)
  | .copy i => ⟨s.tables ++ s.tables[i]?.toList⟩
  | .ask _ _ => s

/-- What calls answer, one after the other. -/
def answers (s : PlainShelf κ) : List (TableCall κ) → List (Except Fault (Option (TableAnswer κ)))
  | [] => []
  | call :: calls => s.answer call :: (s.next call).answers calls

variable {s} {i : Nat} {p : PlainTable κ}

theorem at?_of_some (hp : s.tables[i]? = some p) (f : PlainTable κ → Except Fault α) :
    s.at? i f = (f p).map some := by
  rw [at?, hp]

theorem at?_of_none (hp : s.tables[i]? = none) (f : PlainTable κ → Except Fault α) :
    s.at? i f = .ok none := by
  rw [at?, hp]

theorem change_of_none (hp : s.tables[i]? = none) (f : PlainTable κ → PlainTable κ) :
    s.change i f = s := by
  rw [change, List.modify_eq_self (List.getElem?_eq_none_iff.mp hp)]

/-- What is done to a table that is there is answered so. -/
theorem at?_map (i : Nat) (r : Except Fault Unit) :
    (s.at? i fun _ => r.map fun _ => TableAnswer.done) =
      (s.at? i fun _ => r) >>= fun b => .ok (b.map fun _ => (.done : TableAnswer κ)) := by
  unfold at?
  cases s.tables[i]? <;> cases r <;> rfl

end PlainShelf

/-- Two tables have nothing at the same place. -/
structure TablePlaces.Apart (p q : TablePlaces) : Prop where
  names : p.names ≠ q.names
  index : p.index ≠ q.index
  values : p.values ≠ q.values

theorem TablePlaces.Apart.symm {p q : TablePlaces} (h : p.Apart q) : q.Apart p :=
  ⟨h.names.symm, h.index.symm, h.values.symm⟩

namespace Shelf

variable {κ : Type} {s : Shelf κ} {plain : PlainShelf κ} {i : Nat} {q q' : TablePlaces}
  {t t' u : VariableTable κ}

/-! ## What changes and what does not -/

theorem tableAt_eq_some_iff : s.tableAt q = some t ↔
    s.names[q.names]? = some t.names ∧ s.indices[q.index]? = some t.index ∧
      s.values[q.values]? = some t.values := by
  obtain ⟨names, index, values⟩ := t
  simp [tableAt, Option.bind_eq_some_iff]

theorem getElem?_set_self {β : Type} {a : Array β} {x : Nat} {b : β} (h : a[x]? = some b) (c : β) :
    (a.setIfInBounds x c)[x]? = some c := by
  obtain ⟨hx, -⟩ := Array.getElem?_eq_some_iff.mp h
  rw [Array.getElem?_setIfInBounds, if_pos rfl, if_pos hx]

theorem getElem?_set_of_ne {β : Type} {a : Array β} {x y : Nat} {b : β} (h : a[x]? = some b) (hne : y ≠ x)
    (c : β) : (a.setIfInBounds y c)[x]? = some b := by
  rw [Array.getElem?_setIfInBounds, if_neg hne, h]

theorem size_ne_of_some {β : Type} {a : Array β} {x : Nat} {b : β} (h : a[x]? = some b) : a.size ≠ x := by
  obtain ⟨hx, -⟩ := Array.getElem?_eq_some_iff.mp h
  exact Nat.ne_of_gt hx

theorem getElem?_push_of_some {β : Type} {a : Array β} {x : Nat} {b : β} (h : a[x]? = some b) (c : β) :
    (a.push c)[x]? = some b := by
  rw [Array.getElem?_push, if_neg (size_ne_of_some h).symm, h]

/-- **Changing a table**: it is as it was meant to be, at its places or with its values at a new one;
tables apart from it are as they were, and still apart. -/
theorem rewrite_spec (hq : s.tables[i]? = some q) (ht : s.tableAt q = some t) (t' : VariableTable κ) :
    ∃ q', (s.rewrite i q t').tables = s.tables.setIfInBounds i q' ∧
      (s.rewrite i q t').tableAt q' = some t' ∧
      ∀ r u, s.tableAt r = some u → q.Apart r → (s.rewrite i q t').tableAt r = some u ∧ q'.Apart r := by
  obtain ⟨hnames, hindex, hvalues⟩ := tableAt_eq_some_iff.mp ht
  by_cases hfits : s.values[q.values]?.map (·.size) = some t'.capacity
  · -- the values fit where they are
    simp only [rewrite, if_pos hfits]
    refine ⟨q, ?_, tableAt_eq_some_iff.mpr ⟨?_, ?_, ?_⟩, fun r u hu hr => ⟨?_, hr⟩⟩
    · obtain ⟨hi, hat⟩ := Array.getElem?_eq_some_iff.mp hq
      rw [Array.setIfInBounds, dif_pos hi, ← hat, Array.set_getElem_self]
    · exact getElem?_set_self hnames _
    · exact getElem?_set_self hindex _
    · exact getElem?_set_self hvalues _
    · obtain ⟨hn, hx, hv⟩ := tableAt_eq_some_iff.mp hu
      exact tableAt_eq_some_iff.mpr ⟨getElem?_set_of_ne hn hr.names _, getElem?_set_of_ne hx hr.index _,
        getElem?_set_of_ne hv hr.values _⟩
  · -- the values are in a new array, which no other table refers to
    simp only [rewrite, if_neg hfits]
    refine ⟨{ q with values := s.values.size }, rfl, tableAt_eq_some_iff.mpr ⟨?_, ?_, ?_⟩,
      fun r u hu hr => ?_⟩
    · exact getElem?_set_self hnames _
    · exact getElem?_set_self hindex _
    · exact Array.getElem?_push_size
    · obtain ⟨hn, hx, hv⟩ := tableAt_eq_some_iff.mp hu
      refine ⟨?_, hr.names, hr.index, size_ne_of_some hv⟩
      exact tableAt_eq_some_iff.mpr ⟨getElem?_set_of_ne hn hr.names _, getElem?_set_of_ne hx hr.index _,
        getElem?_push_of_some hv _⟩

/-- **Adding a table**: it is at new places, and the others are as they were. -/
theorem add_spec (s : Shelf κ) (t : VariableTable κ) :
    (add t).Succeeds s fun _ s' => ∃ q', s'.tables = s.tables.push q' ∧ s'.tableAt q' = some t ∧
      ∀ r u, s.tableAt r = some u → s'.tableAt r = some u ∧ q'.Apart r := by
  refine Act.ensures_of_ok rfl ⟨_, rfl, tableAt_eq_some_iff.mpr ⟨?_, ?_, ?_⟩, fun r u hu => ?_⟩
  · exact Array.getElem?_push_size
  · exact Array.getElem?_push_size
  · exact Array.getElem?_push_size
  · obtain ⟨hn, hx, hv⟩ := tableAt_eq_some_iff.mp hu
    refine ⟨?_, size_ne_of_some hn, size_ne_of_some hx, size_ne_of_some hv⟩
    exact tableAt_eq_some_iff.mpr
      ⟨getElem?_push_of_some hn _, getElem?_push_of_some hx _, getElem?_push_of_some hv _⟩

/-! ## Shelves and plain shelves -/

/-- A shelf shows a plain one: each of its tables represents the plain one of the same number, and no two
have anything at the same place. -/
structure Shows (s : Shelf κ) (plain : PlainShelf κ) : Prop where
  size : s.tables.size = plain.tables.length
  represents : ∀ {i : Nat} {q}, s.tables[i]? = some q →
    ∃ p t, plain.tables[i]? = some p ∧ s.tableAt q = some t ∧ t.Represents p
  apart : ∀ {i j : Nat} {q r}, s.tables[i]? = some q → s.tables[j]? = some r → i ≠ j → q.Apart r

/-- There are no tables at first. -/
theorem shows_empty : (empty : Shelf κ).Shows ⟨[]⟩ := by
  refine ⟨rfl, fun h => ?_, fun h => ?_⟩ <;> simp [empty] at h

/-- There are the tables that there are plain ones for. -/
theorem Shows.places (h : s.Shows plain) (i : Nat) :
    (s.tables[i]? = none ∧ plain.tables[i]? = none) ∨
      ∃ q t p, s.tables[i]? = some q ∧ s.tableAt q = some t ∧ plain.tables[i]? = some p ∧ t.Represents p := by
  cases hq : s.tables[i]? with
  | none =>
    rw [Array.getElem?_eq_none_iff, h.size] at hq
    exact .inl ⟨rfl, List.getElem?_eq_none hq⟩
  | some q =>
    obtain ⟨p, t, hp, ht, hr⟩ := h.represents hq
    exact .inr ⟨q, t, p, rfl, ht, hp, hr⟩

/-- One table is new or changed and has places of its own; the others are as they were. -/
theorem Shows.of_others (h : s.Shows plain) {s' : Shelf κ} {plain' : PlainShelf κ} {p : PlainTable κ}
    (hsize : s'.tables.size = plain'.tables.length)
    (hq : s'.tables[i]? = some q) (ht : s'.tableAt q = some t) (hp : plain'.tables[i]? = some p)
    (hr : t.Represents p)
    (htables : ∀ {j : Nat} {r}, s'.tables[j]? = some r → i ≠ j → s.tables[j]? = some r)
    (hplain : ∀ {j : Nat}, i ≠ j → ∀ {p'}, plain.tables[j]? = some p' → plain'.tables[j]? = some p')
    (hothers : ∀ {j : Nat} {r u}, s.tables[j]? = some r → i ≠ j → s.tableAt r = some u →
      s'.tableAt r = some u ∧ q.Apart r) : s'.Shows plain' := by
  have hapart : ∀ {j : Nat} {r}, s'.tables[j]? = some r → i ≠ j → q.Apart r := by
    intro j r hj hne
    obtain ⟨-, u, -, hu, -⟩ := h.represents (htables hj hne)
    exact (hothers (htables hj hne) hne hu).2
  have hsame : ∀ {r}, s'.tables[i]? = some r → q = r := fun hr => Option.some.inj (hq.symm.trans hr)
  refine ⟨hsize, fun {j r} hj => ?_, fun {j k r r'} hj hk hne => ?_⟩
  · by_cases hij : i = j
    · subst hij
      obtain rfl := hsame hj
      exact ⟨p, t, hp, ht, hr⟩
    · obtain ⟨p', u, hp', hu, hr'⟩ := h.represents (htables hj hij)
      exact ⟨p', u, hplain hij hp', (hothers (htables hj hij) hij hu).1, hr'⟩
  · by_cases hij : i = j
    · subst hij
      obtain rfl := hsame hj
      exact hapart hk hne
    · by_cases hik : i = k
      · subst hik
        obtain rfl := hsame hk
        exact (hapart hj hij).symm
      · exact h.apart (htables hj hij) (htables hk hik) hne

/-- A table of a shelf is changed as its plain one is. -/
theorem Shows.rewrite (h : s.Shows plain) (hq : s.tables[i]? = some q) (ht : s.tableAt q = some t)
    {p : PlainTable κ} (hp : plain.tables[i]? = some p) {f : PlainTable κ → PlainTable κ}
    (hr : t'.Represents (f p)) : (s.rewrite i q t').Shows (plain.change i f) := by
  obtain ⟨q', htables, hat, hothers⟩ := rewrite_spec hq ht t'
  refine h.of_others ?_ (htables ▸ getElem?_set_self hq q') hat ?_ hr (fun {j r} hj hne => ?_)
    (fun {j} hne {p'} hp' => ?_) fun hj hne hu => hothers _ _ hu (h.apart hq hj hne)
  · rw [htables, Array.size_setIfInBounds, h.size, PlainShelf.change, List.length_modify]
  · simp [PlainShelf.change, hp]
  · rwa [htables, Array.getElem?_setIfInBounds, if_neg hne] at hj
  · simp [PlainShelf.change, hp', hne]

/-- A table is added as its plain one is. -/
theorem Shows.add (h : s.Shows plain) {p : PlainTable κ} (hr : t.Represents p) :
    (add t).Succeeds s fun _ s' => s'.Shows ⟨plain.tables ++ [p]⟩ := by
  refine (add_spec s t).mono ?_
  rintro - s' ⟨q', htables, hat, hothers⟩
  refine h.of_others ?_ (htables ▸ Array.getElem?_push_size) hat ?_ hr (fun {j r} hj hne => ?_)
    (fun {j} hne {p'} hp' => ?_) fun hj hne hu => hothers _ _ hu
  · rw [htables, Array.size_push, h.size, List.length_append, List.length_singleton]
  · rw [h.size, List.getElem?_append_right (Nat.le_refl _), Nat.sub_self]
    rfl
  · rwa [htables, Array.getElem?_push, if_neg hne.symm] at hj
  · obtain ⟨hj, -⟩ := List.getElem?_eq_some_iff.mp hp'
    rwa [List.getElem?_append_left hj]

/-! ## Acts and calls -/

section Lookup

variable {α : Type}

theorem table?_of_some (hq : s.tables[i]? = some q) : s.table? i = s.tableAt q := by
  rw [table?, hq, Option.bind_some]

theorem table?_of_none (hq : s.tables[i]? = none) : s.table? i = none := by
  rw [table?, hq, Option.bind_none]

theorem perform_onTable_of_none (hq : s.tables[i]? = none) (act : Act (VariableTable κ) α) :
    (onTable i act).perform s = (.ok none, s) := by
  simp only [Act.perform, ExceptT.run, onTable, hq]

theorem perform_onTable (hq : s.tables[i]? = some q) (ht : s.tableAt q = some t)
    (act : Act (VariableTable κ) α) : (onTable i act).perform s =
      ((act.perform t).1.map some, s.rewrite i q (act.perform t).2) := by
  simp only [Act.perform, ExceptT.run, onTable, table?_of_some hq, ht, hq]

end Lookup

/-- An act on a table that follows a change of its plain one. -/
theorem onTable_follows {act : Act (VariableTable κ) Unit} {r : Except Fault Unit}
    {f : PlainTable κ → PlainTable κ} (h : s.Shows plain) (i : Nat)
    (hact : ∀ p t, t.Represents p →
      act.Follows t r (fun _ _ t' => t'.Represents (f p)) fun t' => t'.Represents (f p)) :
    (onTable i act).Follows s (plain.at? i fun _ => r)
      (fun a b s' => a = b ∧ s'.Shows (plain.change i f)) fun s' => s'.Shows (plain.change i f) := by
  obtain ⟨hq, hp⟩ | ⟨q, t, p, hq, ht, hp, hr⟩ := h.places i
  · rw [PlainShelf.at?_of_none hp, PlainShelf.change_of_none hp]
    exact Act.ensures_of_ok (perform_onTable_of_none hq act) ⟨none, rfl, rfl, h⟩
  · rw [PlainShelf.at?_of_some hp]
    have hrun := perform_onTable hq ht act
    have hfollows := hact p t hr
    rcases hperform : act.perform t with ⟨fault | ⟨⟩, t'⟩ <;> rw [hperform] at hrun
    · obtain ⟨rfl, hr'⟩ := Act.Ensures.of_error hfollows hperform
      exact Act.ensures_of_error hrun ⟨rfl, h.rewrite hq ht hp hr'⟩
    · obtain ⟨_, rfl, hr'⟩ := Act.Ensures.of_ok hfollows hperform
      exact Act.ensures_of_ok hrun ⟨some (), rfl, rfl, h.rewrite hq ht hp hr'⟩

/-- Making a table is refused if it could hold nothing. -/
theorem make_follows (h : s.Shows plain) (capacity : Int) :
    (make capacity).Follows s (if 1 ≤ capacity then .ok () else .error .noCapacity)
      (fun _ _ s' => s'.Shows (plain.next (.make capacity))) fun s' => s'.Shows (plain.next (.make capacity)) := by
  unfold make PlainShelf.next
  by_cases hc : 1 ≤ capacity
  · obtain ⟨t, ht, hr⟩ := VariableTable.make_represents (κ := κ) hc
    rw [if_pos hc, ht]
    simp only [dif_pos hc]
    exact (h.add hr).ensures.mono (fun _ _ hs => ⟨(), rfl, hs⟩) fun _ _ => False.elim
  · have hmake : VariableTable.make capacity = .error (α := VariableTable κ) .noCapacity := if_pos (by omega)
    rw [if_neg hc, hmake]
    simp only [dif_neg hc]
    exact Act.ensures_of_error rfl ⟨rfl, h⟩

/-- A copy has all that the table has. -/
theorem copy_follows (h : s.Shows plain) (i : Nat) :
    (copy i).Follows s (plain.at? i fun _ => .ok ())
      (fun a b s' => a = b ∧ s'.Shows (plain.next (.copy i))) fun s' => s'.Shows (plain.next (.copy i)) := by
  unfold copy PlainShelf.next
  refine Act.ensures_get ?_
  obtain ⟨hq, hp⟩ | ⟨q, t, p, hq, ht, hp, hr⟩ := h.places i
  · rw [PlainShelf.at?_of_none hp, table?_of_none hq]
    simp only [hp, Option.toList_none, List.append_nil]
    exact Act.follows_pure ⟨rfl, h⟩
  · rw [PlainShelf.at?_of_some hp, table?_of_some hq, ht]
    simp only [hp, hr.copied_eq, Option.toList_some]
    exact (h.add hr).bind fun _ _ hs => Act.follows_pure ⟨rfl, hs⟩

theorem ask_follows (h : s.Shows plain) (i : Nat) (question : TableQuestion κ) :
    (ask i question).Follows s (plain.at? i fun p => p.reply question)
      (fun a b s' => a = b ∧ s'.Shows plain) fun s' => s'.Shows plain := by
  unfold ask
  refine Act.ensures_get ?_
  obtain ⟨hq, hp⟩ | ⟨q, t, p, hq, ht, hp, hr⟩ := h.places i
  · rw [PlainShelf.at?_of_none hp, table?_of_none hq]
    exact Act.follows_pure ⟨rfl, h⟩
  · rw [PlainShelf.at?_of_some hp, table?_of_some hq, ht]
    simp only [hr.reply_eq]
    cases p.reply question with
    | error f => exact Act.ensures_of_error rfl ⟨rfl, h⟩
    | ok a => exact Act.ensures_of_ok rfl ⟨_, rfl, rfl, h⟩

end Shelf

namespace TableCall

variable {κ : Type} {s : Shelf κ} {plain : PlainShelf κ}

/-- An act that is done answers so, and one that is refused is refused. -/
theorem done_follows {act : ShelfWork κ (Option Unit)} {r : Except Fault (Option Unit)}
    {answer : Except Fault (Option (TableAnswer κ))} {after : PlainShelf κ}
    (h : act.Follows s r (fun a b s' => a = b ∧ s'.Shows after) fun s' => s'.Shows after)
    (hanswer : answer = r >>= fun b => .ok (b.map fun _ => .done)) :
    (do let a ← act; pure (a.map fun _ => TableAnswer.done)).Follows s answer
      (fun a b s' => a = b ∧ s'.Shows after) fun s' => s'.Shows after := by
  rw [hanswer]
  refine h.bind ?_
  rintro a _ s' ⟨rfl, hs⟩
  exact Act.follows_pure ⟨rfl, hs⟩

/-- **One call**: the shelf answers as the plain shelf, and shows the next plain shelf then. -/
theorem act_follows (h : s.Shows plain) (call : TableCall κ) :
    call.act.Follows s (plain.answer call) (fun a b s' => a = b ∧ s'.Shows (plain.next call))
      fun s' => s'.Shows (plain.next call) := by
  cases call with
  | make capacity =>
    rw [act, show plain.answer (.make capacity) =
      (if 1 ≤ capacity then Except.ok () else .error .noCapacity) >>= fun _ => .ok (some .done) by
        rw [PlainShelf.answer]; split <;> rfl]
    exact (Shelf.make_follows h capacity).bind fun _ _ _ hs => Act.follows_pure ⟨rfl, hs⟩
  | set i name value =>
    exact done_follows (Shelf.onTable_follows h i fun p t hr => VariableTable.set_follows hr name value)
      (PlainShelf.at?_map i _)
  | update i pairs =>
    exact done_follows (Shelf.onTable_follows h i fun p t hr => VariableTable.update_follows hr pairs)
      (PlainShelf.at?_map i _)
  | copy i => exact done_follows (Shelf.copy_follows h i) (PlainShelf.at?_map i (.ok ()))
  | ask i question => exact Shelf.ask_follows h i question

end TableCall

namespace Shelf

variable {κ : Type} {s : Shelf κ} {plain : PlainShelf κ}

/-- **Any number of calls** are answered as the plain shelf answers them. -/
theorem serve_spec (h : s.Shows plain) (calls : List (TableCall κ)) :
    (serve calls).Succeeds s fun answers s' =>
      answers = plain.answers calls ∧ s'.Shows (calls.foldl PlainShelf.next plain) := by
  induction calls generalizing s plain with
  | nil => exact Act.ensures_pure ⟨rfl, h⟩
  | cons call calls ih =>
    refine (TableCall.act_follows h call).attempt.bind ?_
    rintro r s' hr
    have hanswer : r = plain.answer call ∧ s'.Shows (plain.next call) := by
      cases r with
      | ok a =>
        obtain ⟨_, hb, rfl, hs⟩ := hr
        exact ⟨hb.symm, hs⟩
      | error f => exact ⟨hr.1.symm, hr.2⟩
    refine (ih hanswer.2).bind ?_
    rintro later s'' ⟨rfl, hs⟩
    exact Act.ensures_pure ⟨by rw [hanswer.1, PlainShelf.answers], hs⟩

/-- **Tables are ordered maps**: from a shelf without tables on, whatever calls are made, each is answered
as it is answered by maps that list their letters in the order of first assignment, that are nothing
but values, and whose capacity is the least one that is had by doubling and has room. -/
theorem serve_eq (calls : List (TableCall κ)) :
    ((serve calls).perform (empty : Shelf κ)).1 = .ok ((⟨[]⟩ : PlainShelf κ).answers calls) := by
  obtain ⟨answers, s', hrun, rfl, -⟩ := (serve_spec shows_empty calls).exists
  rw [hrun]

end Shelf

end Fluxion
