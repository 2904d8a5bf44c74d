import Fluxion.Proofs.Ensures
import Fluxion.VariableTable
import Mathlib.Algebra.GroupWithZero.Nat
import Mathlib.Data.Nat.Find
import Mathlib.Data.List.Nodup

/-!
# Tables and ordered maps

What a table is meant to be has no cells and no index: it is a map that lists its letters in the order
in which they were first assigned, and the capacity the table was made with. A table represents such a
plain table if its index finds every name where it stands in the list, the values stand at the same
places, and its capacity is the least one that can be had by doubling and has room for them.

* `LetterMap` is a map from letters in the order of their first assignment.
* `PlainTable` is a map with a capacity, and `PlainTable.reply` says what is to be answered.
* `VariableTable.Represents` relates a table to a plain one. Setting variables keeps the relation
  (`Represents.put`, `update_follows`), and what is related answers alike (`Represents.reply_eq`).
-/

namespace Fluxion

/-! ## Maps that keep an order -/

/-- A map from letters to values, which are listed in the order in which they were first assigned. -/
structure LetterMap (κ : Type) where
  entries : List (Name × κ)
  nodup : (entries.map Prod.fst).Nodup
  letters : ∀ name ∈ entries.map Prod.fst, name.isLetter = true

/-- A map, and the capacity that a table for it is made with. -/
structure PlainTable (κ : Type) where
  initial : Nat
  positive : 1 ≤ initial
  map : LetterMap κ

namespace LetterMap

variable {κ : Type} {name : Name} {value : κ} {es : List (Name × κ)} {i : Nat}

/-- The entries after an assignment: the entry of the name keeps its place, and a new one comes last. -/
def assigned (name : Name) (value : κ) : List (Name × κ) → List (Name × κ)
  | [] => [(name, value)]
  | e :: es => if e.1 = name then (name, value) :: es else e :: assigned name value es

/-- A name that is listed has its value replaced where it stands. -/
theorem assigned_of_idxOf? (h : (es.map Prod.fst).idxOf? name = some i) :
    assigned name value es = es.set i (name, value) := by
  induction es generalizing i with
  | nil => simp at h
  | cons e es ih =>
    rw [assigned]
    by_cases he : e.1 = name
    · obtain rfl : i = 0 := by simpa [List.idxOf?_cons, he] using h.symm
      rw [if_pos he]
      rfl
    · rw [if_neg he]
      simp only [List.map_cons, List.idxOf?_cons, beq_eq_false_iff_ne.mpr he, Bool.false_eq_true,
        if_false, Option.map_eq_some_iff] at h
      obtain ⟨j, hj, rfl⟩ := h
      rw [ih hj, List.set_cons_succ]

/-- A name that is not listed comes last. -/
theorem assigned_of_not_mem (h : name ∉ es.map Prod.fst) :
    assigned name value es = es ++ [(name, value)] := by
  induction es with
  | nil => rfl
  | cons e es ih =>
    rw [List.map_cons, List.mem_cons, not_or] at h
    rw [assigned, if_neg (Ne.symm h.1), ih h.2, List.cons_append]

/-- An assignment does not reorder the names. -/
theorem keys_assigned : (assigned name value es).map Prod.fst =
    if name ∈ es.map Prod.fst then es.map Prod.fst else es.map Prod.fst ++ [name] := by
  induction es with
  | nil => rfl
  | cons e es ih =>
    rw [assigned]
    by_cases he : e.1 = name
    · simp [he]
    · rw [if_neg he, List.map_cons, ih]
      simp only [List.map_cons, List.mem_cons, Ne.symm he, false_or]
      split <;> rfl

theorem lookup_cons {β : Type} (n : Name) (e : Name × β) (es : List (Name × β)) :
    (e :: es).lookup n = if n = e.1 then some e.2 else es.lookup n := by
  obtain ⟨k, v⟩ := e
  by_cases h : n = k
  · simp [h]
  · rw [List.lookup_cons, beq_eq_false_iff_ne.mpr h, if_neg h]

variable (m : LetterMap κ)

/-- The map without entries. -/
def empty : LetterMap κ := ⟨[], List.nodup_nil, nofun⟩

/-- The names, in the order of their first assignment. -/
def keys : List Name := m.entries.map Prod.fst

/-- The value of a name. -/
def get? (name : Name) : Option κ := m.entries.lookup name

/-- Assigns a value to a name; what is no letter is not assigned anything. -/
def assign (name : Name) (value : κ) : LetterMap κ :=
  if h : name.isLetter = true then
    { entries := assigned name value m.entries
      nodup := by
        rw [keys_assigned]
        split
        · exact m.nodup
        · exact List.nodup_append.mpr ⟨m.nodup, List.nodup_singleton _, by grind⟩
      letters := by
        rw [keys_assigned]
        split
        · exact m.letters
        · exact List.forall_mem_append.mpr ⟨m.letters, List.forall_mem_singleton.mpr h⟩ }
  else m

theorem entries_assign (h : name.isLetter = true) :
    (m.assign name value).entries = assigned name value m.entries := by
  rw [assign, dif_pos h]

theorem assign_of_not_letter (h : ¬name.isLetter = true) : m.assign name value = m := dif_neg h

/-- The value of a name stands where the name is listed. -/
theorem get?_eq_bind (n : Name) :
    m.get? n = (m.keys.idxOf? n).bind fun i => m.entries[i]?.map Prod.snd := by
  rw [get?, keys]
  induction m.entries with
  | nil => rfl
  | cons e es ih =>
    rw [lookup_cons, List.map_cons, List.idxOf?_cons, ih]
    by_cases he : e.1 = n
    · simp [he]
    · rw [if_neg (Ne.symm he), beq_eq_false_iff_ne.mpr he]
      cases (es.map Prod.fst).idxOf? n <;> rfl

end LetterMap

/-! ## Plain tables -/

/-- Doubling often enough makes room for anything. -/
theorem exists_doublings {c : Nat} (hc : 1 ≤ c) (n : Nat) : ∃ j, n ≤ c * 2 ^ j :=
  ⟨n, Nat.le_trans (Nat.le_of_lt n.lt_two_pow_self) (Nat.le_mul_of_pos_left _ hc)⟩

/-- The least capacity that has room for `n` and is had by doubling `c`. -/
def roomFor {c : Nat} (hc : 1 ≤ c) (n : Nat) : Nat := c * 2 ^ Nat.find (exists_doublings hc n)

theorem le_roomFor {c : Nat} (hc : 1 ≤ c) (n : Nat) : n ≤ roomFor hc n :=
  Nat.find_spec (exists_doublings hc n)

theorem roomFor_zero {c : Nat} (hc : 1 ≤ c) : roomFor hc 0 = c := by
  have h : Nat.find (exists_doublings hc 0) = 0 := (Nat.find_eq_zero _).mpr (Nat.zero_le _)
  rw [roomFor, h, Nat.pow_zero, Nat.mul_one]

/-- For one more, the room is doubled if it is full. -/
theorem roomFor_succ {c : Nat} (hc : 1 ≤ c) (n : Nat) :
    roomFor hc (n + 1) = if n = roomFor hc n then 2 * roomFor hc n else roomFor hc n := by
  have hroom := le_roomFor hc n
  have hleast : ∀ k < Nat.find (exists_doublings hc n), ¬n ≤ c * 2 ^ k := fun k hk =>
    Nat.find_min (exists_doublings hc n) hk
  unfold roomFor at hroom ⊢
  generalize Nat.find (exists_doublings hc n) = j at hroom hleast ⊢
  have hpos : 0 < c * 2 ^ j := Nat.mul_pos hc (Nat.two_pow_pos j)
  split
  next hfull =>
    have hfind : Nat.find (exists_doublings hc (n + 1)) = j + 1 := by
      refine (Nat.find_eq_iff _).mpr ⟨by rw [Nat.pow_succ, ← Nat.mul_assoc]; omega, fun k hk => ?_⟩
      have hk' : c * 2 ^ k ≤ c * 2 ^ j :=
        Nat.mul_le_mul_left c (Nat.pow_le_pow_right Nat.two_pos (Nat.le_of_lt_succ hk))
      omega
    rw [hfind, Nat.pow_succ, ← Nat.mul_assoc, Nat.mul_comm]
  next hfree =>
    have hfind : Nat.find (exists_doublings hc (n + 1)) = j :=
      (Nat.find_eq_iff _).mpr ⟨by omega, fun k hk => by have := hleast k hk; omega⟩
    rw [hfind]

namespace PlainTable

variable {κ : Type} (p : PlainTable κ)

/-- An empty table. -/
def empty {capacity : Int} (h : 1 ≤ capacity) : PlainTable κ := ⟨capacity.toNat, by omega, .empty⟩

/-- The least `initial * 2 ^ j` that has room for all entries. -/
def capacity : Nat := roomFor p.positive p.map.entries.length

/-- The answer to a question. -/
def reply : TableQuestion κ → Except Fault (TableAnswer κ)
  | .get name default => .ok (.value ((p.map.get? name).or default))
  | .item name =>
    match p.map.get? name with
    | some v => .ok (.value (some v))
    | none => .error (.unbound name)
  | .contains name => .ok (.truth (p.map.get? name).isSome)
  | .size => .ok (.count p.map.entries.length)
  | .names => .ok (.names p.map.keys)
  | .items => .ok (.items p.map.entries)
  | .capacity => .ok (.count p.capacity)

/-- The table after setting a variable; nothing changes if that is refused. -/
def assign (name : Name) (value : κ) : PlainTable κ := { p with map := p.map.assign name value }

/-- What comes of setting a variable: what is no letter is refused. -/
def verdict (name : Name) : Except Fault Unit :=
  if name.isLetter then .ok () else .error (.invalidName name)

/-- The table after setting several variables: those before the first name that is refused are set. -/
def assignAll (pairs : List (Name × κ)) : PlainTable κ :=
  (pairs.takeWhile (·.1.isLetter)).foldl (fun p pair => p.assign pair.1 pair.2) p

/-- What comes of setting several variables: the first name that is no letter is refused. -/
def verdictOfAll (pairs : List (Name × κ)) : Except Fault Unit :=
  match pairs.find? (!·.1.isLetter) with
  | some pair => .error (.invalidName pair.1)
  | none => .ok ()

variable {p} {name : Name} (value : κ) (pairs : List (Name × κ))

theorem assign_of_not_letter (h : ¬name.isLetter = true) : p.assign name value = p :=
  congrArg (PlainTable.mk p.initial p.positive) (p.map.assign_of_not_letter h)

theorem assignAll_cons (h : name.isLetter = true) :
    p.assignAll ((name, value) :: pairs) = (p.assign name value).assignAll pairs := by
  simp [assignAll, h]

theorem assignAll_cons_of_not_letter (h : ¬name.isLetter = true) :
    p.assignAll ((name, value) :: pairs) = p := by
  simp [assignAll, h]

theorem verdictOfAll_cons :
    verdictOfAll ((name, value) :: pairs) = verdict name >>= fun _ => verdictOfAll pairs := by
  cases h : name.isLetter <;> simp [verdict, verdictOfAll, h, bind, Except.bind]

end PlainTable

/-! ## Tables that represent plain ones -/

namespace ValueArray

variable {κ : Type} (a : ValueArray κ) (i : Nat) (value : κ)

@[simp] theorem cells_write : (a.write i value).cells = a.cells.set i (some value) := rfl

@[simp] theorem size_write : (a.write i value).size = a.size := List.length_set

/-- A full array keeps all its cells when it is doubled. -/
theorem cells_doubled_size : (a.doubled a.size).cells = a.cells ++ List.replicate a.size none := by
  rw [doubled, show a.cells.take a.size = a.cells from List.take_length]
  exact congrArg (a.cells ++ List.replicate · none) (by omega)

end ValueArray

namespace VariableTable

variable {κ : Type} {t : VariableTable κ} {p : PlainTable κ} {name : Name} {value : κ}

/-- A table represents a plain one: the names and the values stand in the order of the entries, the index
tells where each name stands, and the capacity is the least one with room for them. -/
structure Represents (t : VariableTable κ) (p : PlainTable κ) : Prop where
  names : t.names = p.map.keys
  position : ∀ name, t.position? name = p.map.keys.idxOf? name
  values : ∃ free, t.values.cells = p.map.entries.map (fun e => some e.2) ++ free
  capacity : t.capacity = p.capacity

namespace Represents

theorem size_eq (h : t.Represents p) : t.size = p.map.entries.length := by
  rw [size, h.names, LetterMap.keys, List.length_map]

/-- A name that is set stands among the entries. -/
theorem lt_of_position (h : t.Represents p) {i : Nat} (hi : t.position? name = some i) :
    i < p.map.entries.length := by
  rw [h.position] at hi
  simpa [LetterMap.keys] using (List.idxOf?_eq_some_iff.mp hi).1

/-- The cells of the entries hold their values. -/
theorem read?_eq (h : t.Represents p) {i : Nat} (hi : i < p.map.entries.length) :
    t.values.read? i = some p.map.entries[i].2 := by
  obtain ⟨free, hfree⟩ := h.values
  rw [ValueArray.read?, hfree, List.getElem?_append_left (by simpa using hi)]
  simp [hi]

theorem get?_eq (h : t.Represents p) (name : Name) : t.get? name = p.map.get? name := by
  rw [get?, LetterMap.get?_eq_bind, ← h.position]
  refine Option.bind_congr fun i hi => ?_
  have hlt := h.lt_of_position hi
  rw [h.read?_eq hlt, List.getElem?_eq_getElem hlt, Option.map_some]

theorem contains_eq (h : t.Represents p) (name : Name) : t.contains name = (p.map.get? name).isSome := by
  rw [← h.get?_eq, contains, get?]
  cases hi : t.position? name with
  | none => rfl
  | some i =>
    rw [Option.bind_some, h.read?_eq (h.lt_of_position hi)]
    rfl

theorem items_eq (h : t.Represents p) : t.items = p.map.entries := by
  rw [items, h.names, LetterMap.keys, List.zipIdx_map, List.filterMap_map]
  have hread : ∀ e ∈ p.map.entries.zipIdx,
      (t.values.read? e.2).map (fun v => (e.1.1, v)) = some e.1 := by
    rintro ⟨e, i⟩ he
    obtain ⟨hi, he'⟩ := List.mem_zipIdx' he
    rw [h.read?_eq hi, ← he', Option.map_some]
  refine (List.filterMap_congr hread).trans ?_
  exact (congrFun List.filterMap_eq_map _).trans (List.zipIdx_map_fst 0 _)

/-- **Questions** are answered as the plain table answers them. -/
theorem reply_eq (h : t.Represents p) (question : TableQuestion κ) : t.reply question = p.reply question := by
  cases question with
  | get name default => rw [reply, PlainTable.reply, h.get?_eq]
  | item name =>
    rw [reply, PlainTable.reply, item, h.get?_eq]
    cases p.map.get? name <;> rfl
  | contains name => rw [reply, PlainTable.reply, h.contains_eq]
  | size => rw [reply, PlainTable.reply, h.size_eq]
  | names => rw [reply, PlainTable.reply, h.names]
  | items => rw [reply, PlainTable.reply, h.items_eq]
  | capacity => rw [reply, PlainTable.reply, h.capacity]

theorem capacity_pos (h : t.Represents p) : 0 < t.capacity := by
  rw [h.capacity]
  exact Nat.mul_pos p.positive (Nat.two_pow_pos _)

/-- A copy of a table is never refused, and has all that the table has. -/
theorem copied_eq (h : t.Represents p) : t.copied = .ok t := by
  have hpos := h.capacity_pos
  rw [copied, make, if_neg (by omega)]
  rfl

/-- Before a name comes last there is a free cell, and the capacity is the least one with room for one
more. -/
theorem grown_spec (h : t.Represents p) :
    t.grown.names = t.names ∧ t.grown.index = t.index ∧
      t.grown.capacity = roomFor p.positive (p.map.entries.length + 1) ∧
      ∃ cell free, t.grown.values.cells = p.map.entries.map (fun e => some e.2) ++ cell :: free := by
  obtain ⟨free, hfree⟩ := h.values
  have hlength : t.names.length = p.map.entries.length := h.size_eq
  have hcapacity : t.capacity = p.map.entries.length + free.length := by
    rw [VariableTable.capacity, ValueArray.size, hfree, List.length_append, List.length_map]
  have hroom : roomFor p.positive p.map.entries.length = t.capacity := h.capacity.symm
  have hpos := h.capacity_pos
  rw [roomFor_succ, hroom, grown, hlength]
  split
  next hfull =>
    obtain rfl : free = [] := List.eq_nil_of_length_eq_zero (by omega)
    have hcells : (t.values.doubled p.map.entries.length).cells =
        p.map.entries.map (fun e => some e.2) ++ List.replicate t.capacity none := by
      rw [hfull, VariableTable.capacity, ValueArray.cells_doubled_size, hfree, List.append_nil]
    refine ⟨rfl, rfl, ?_, none, List.replicate (t.capacity - 1) none, ?_⟩
    · rw [VariableTable.capacity, ValueArray.size, hcells, List.length_append, List.length_map,
        List.length_replicate]
      omega
    · rw [hcells, ← List.replicate_succ, Nat.sub_add_cancel hpos]
  next hspare =>
    refine ⟨rfl, rfl, rfl, ?_⟩
    cases free with
    | nil => exact absurd hcapacity.symm hspare
    | cons cell free => exact ⟨cell, free, hfree⟩

end Represents

theorem put_of_some {i : Nat} (h : t.position? name = some i) :
    t.put name value = ⟨t.names, t.index, t.values.write i value⟩ := by
  rw [put, h]

theorem put_of_none (h : t.position? name = none) :
    t.put name value = ⟨t.grown.names ++ [name], (name, t.grown.names.length) :: t.grown.index,
      t.grown.values.write t.grown.names.length value⟩ := by
  rw [put, h]

/-- A name that is set has its value replaced in its cell. -/
theorem Represents.put_of_mem (h : t.Represents p) (hname : name.isLetter = true)
    (hmem : name ∈ p.map.keys) : (t.put name value).Represents (p.assign name value) := by
  obtain ⟨i, hi⟩ := Option.isSome_iff_exists.mp (List.isSome_idxOf?.mpr hmem)
  obtain ⟨hlt, hat, -⟩ := List.idxOf?_eq_some_iff.mp hi
  have hentries : (p.assign name value).map.entries = p.map.entries.set i (name, value) := by
    rw [PlainTable.assign, LetterMap.entries_assign _ hname, LetterMap.assigned_of_idxOf? hi]
  have hkeys : (p.assign name value).map.keys = p.map.keys := by
    have hself : p.map.keys.set i p.map.keys[i] = p.map.keys := List.set_getElem_self hlt
    rw [hat] at hself
    rw [LetterMap.keys, hentries, List.map_set]
    exact hself
  obtain ⟨free, hfree⟩ := h.values
  rw [put_of_some ((h.position name).trans hi)]
  refine ⟨h.names.trans hkeys.symm, ?_, ⟨free, ?_⟩, ?_⟩
  · rw [hkeys]
    exact h.position
  · rw [ValueArray.cells_write, hfree, hentries, List.map_set, List.set_append_left]
    simpa [LetterMap.keys] using hlt
  · rw [PlainTable.capacity, hentries, List.length_set, VariableTable.capacity, ValueArray.size_write]
    exact h.capacity

/-- A name that was not set comes last. -/
theorem Represents.put_of_not_mem (h : t.Represents p) (hname : name.isLetter = true)
    (hmem : name ∉ p.map.keys) : (t.put name value).Represents (p.assign name value) := by
  have hentries : (p.assign name value).map.entries = p.map.entries ++ [(name, value)] := by
    rw [PlainTable.assign, LetterMap.entries_assign _ hname, LetterMap.assigned_of_not_mem hmem]
  have hkeys : (p.assign name value).map.keys = p.map.keys ++ [name] := by
    rw [LetterMap.keys, hentries, List.map_append]
    rfl
  have hlength : t.names.length = p.map.entries.length := h.size_eq
  have hnone : p.map.keys.idxOf? name = none := List.idxOf?_eq_none_iff.mpr hmem
  obtain ⟨hnames, hindex, hcapacity, cell, free, hcells⟩ := h.grown_spec
  rw [put_of_none ((h.position name).trans hnone), hnames, hindex, hlength]
  refine ⟨?_, fun n => ?_, ⟨free, ?_⟩, ?_⟩
  · rw [hkeys, h.names]
  · -- the new name is found at the end, all others where they were
    have hn : t.index.lookup n = p.map.keys.idxOf? n := h.position n
    have hlast : p.map.keys.length = p.map.entries.length := List.length_map _
    rw [position?, LetterMap.lookup_cons, hn, hkeys, List.idxOf?, List.findIdx?_append, hlast]
    by_cases he : n = name
    · rw [if_pos he, he, ← List.idxOf?, hnone]
      simp
    · rw [if_neg he]
      simp [Ne.symm he]
  · rw [ValueArray.cells_write, hcells, List.set_append_right _ _ (by simp), hentries]
    simp
  · rw [PlainTable.capacity, hentries, VariableTable.capacity, ValueArray.size_write, List.length_append]
    exact hcapacity

/-- **Setting a letter**: its value is replaced where it stands, or it comes last. -/
theorem Represents.put (h : t.Represents p) (hname : name.isLetter = true) :
    (t.put name value).Represents (p.assign name value) := by
  by_cases hmem : name ∈ p.map.keys
  · exact h.put_of_mem hname hmem
  · exact h.put_of_not_mem hname hmem

/-! ## Acts on tables -/

/-- A new table is empty, and has the capacity that was asked for. -/
theorem make_represents {capacity : Int} (h : 1 ≤ capacity) :
    ∃ t : VariableTable κ, make capacity = .ok t ∧ t.Represents (.empty h) := by
  refine ⟨_, if_neg (by omega), rfl, fun _ => rfl, ⟨_, (List.nil_append _).symm⟩, ?_⟩
  exact List.length_replicate.trans (roomFor_zero _).symm

theorem set_of_letter (h : name.isLetter = true) : set name value = modify (·.put name value) := if_pos h

theorem set_of_not_letter (h : ¬name.isLetter = true) : set name value = throw (.invalidName name) := if_neg h

/-- Setting a variable is refused if its name is no letter, and changes nothing then. -/
theorem set_follows (h : t.Represents p) (name : Name) (value : κ) :
    (set name value).Follows t (PlainTable.verdict name)
      (fun _ _ t' => t'.Represents (p.assign name value)) fun t' => t'.Represents (p.assign name value) := by
  by_cases hname : name.isLetter = true
  · rw [set_of_letter hname, PlainTable.verdict, if_pos hname]
    exact Act.ensures_of_ok rfl ⟨(), rfl, h.put hname⟩
  · rw [set_of_not_letter hname, PlainTable.verdict, if_neg hname, PlainTable.assign_of_not_letter value hname]
    exact Act.follows_throw h

/-- **Setting several variables** stops at the first name that is no letter, after the pairs before it. -/
theorem update_follows (h : t.Represents p) (pairs : List (Name × κ)) :
    (update pairs).Follows t (PlainTable.verdictOfAll pairs)
      (fun _ _ t' => t'.Represents (p.assignAll pairs)) fun t' => t'.Represents (p.assignAll pairs) := by
  induction pairs generalizing t p with
  | nil => exact Act.follows_pure h
  | cons pair pairs ih =>
    obtain ⟨name, value⟩ := pair
    rw [update, PlainTable.verdictOfAll_cons]
    by_cases hname : name.isLetter = true
    · rw [set_of_letter hname, PlainTable.verdict, if_pos hname, PlainTable.assignAll_cons value pairs hname]
      exact Act.ensures_modify (ih (h.put hname))
    · rw [set_of_not_letter hname, PlainTable.verdict, if_neg hname,
        PlainTable.assignAll_cons_of_not_letter value pairs hname]
      exact Act.follows_throw h

end VariableTable

end Fluxion
