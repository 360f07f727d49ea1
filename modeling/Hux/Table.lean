import Mathlib.Data.List.Sort
import Mathlib.Data.List.Perm.Basic

/-!
# Tables

Maps kept in the order of their keys, so that a walk over one meets them in that order.

* `find_insert_self`, `find_insert_of_ne`: what is found once an entry is written;
* `perm_erase`, `perm_insert`: a table is an entry of its own and the rest.
-/

/-- Entries by ascending key. -/
structure Table (α : Type) where
  entries : List (Nat × α)
  sorted : entries.Pairwise (·.1 < ·.1)
  deriving DecidableEq, Repr

namespace Table
variable {α : Type} {t : Table α} {k k' : Nat} {v v' : α}

def empty : Table α := ⟨[], .nil⟩

def find (t : Table α) (k : Nat) : Option α := (t.entries.find? (·.1 = k)).map (·.2)

def erase (t : Table α) (k : Nat) : Table α where
  entries := t.entries.filter (·.1 ≠ k)
  sorted := t.sorted.filter _

/-- Puts an entry in its place, instead of the one with that key if there is one. -/
def insert (t : Table α) (k : Nat) (v : α) : Table α where
  entries := t.entries.filter (·.1 < k) ++ (k, v) :: t.entries.filter (k < ·.1)
  sorted := by
    refine List.pairwise_append.mpr ⟨t.sorted.filter _, List.pairwise_cons.mpr
      ⟨?_, t.sorted.filter _⟩, ?_⟩
    · intro x hx
      simpa using (List.mem_filter.mp hx).2
    · intro x hx y hy
      have below : x.1 < k := by simpa using (List.mem_filter.mp hx).2
      rcases List.mem_cons.mp hy with rfl | hy
      · exact below
      · have above : k < y.1 := by simpa using (List.mem_filter.mp hy).2
        exact below.trans above

theorem ext_entries {t t' : Table α} (h : t.entries = t'.entries) : t = t' := by
  cases t
  cases t'
  cases h
  rfl

theorem nodup_keys (t : Table α) : (t.entries.map (·.1)).Nodup :=
  List.pairwise_map.mpr (t.sorted.imp Nat.ne_of_lt)

theorem mem_unique (h : (k, v) ∈ t.entries) (h' : (k, v') ∈ t.entries) : v = v' :=
  congrArg Prod.snd (List.inj_on_of_nodup_map t.nodup_keys h h' rfl)

theorem find_eq_some : t.find k = some v ↔ (k, v) ∈ t.entries := by
  constructor
  · intro h
    obtain ⟨⟨k', v'⟩, found, rfl⟩ := Option.map_eq_some_iff.mp h
    obtain rfl : k' = k := by simpa using List.find?_some found
    exact List.mem_of_find?_eq_some found
  · intro h
    cases found : t.entries.find? (·.1 = k) with
    | none =>
      have absent := List.find?_eq_none.mp found (k, v) h
      simp at absent
    | some x =>
      obtain ⟨k', v'⟩ := x
      obtain rfl : k' = k := by simpa using List.find?_some found
      rw [find, found, mem_unique h (List.mem_of_find?_eq_some found)]
      rfl

theorem find_eq_none : t.find k = none ↔ ∀ v, (k, v) ∉ t.entries := by
  constructor
  · intro none v there
    rw [find_eq_some.mpr there] at none
    cases none
  · intro absent
    cases found : t.find k with
    | none => rfl
    | some v => exact absurd (find_eq_some.mp found) (absent v)

theorem find_congr {t t' : Table α} (h : ∀ v, (k, v) ∈ t.entries ↔ (k', v) ∈ t'.entries) :
    t.find k = t'.find k' := by
  cases found : t.find k with
  | none =>
    refine (find_eq_none.mpr fun v there => ?_).symm
    exact find_eq_none.mp found v ((h v).mpr there)
  | some v => exact (find_eq_some.mpr ((h v).mp (find_eq_some.mp found))).symm

theorem mem_erase : (k', v') ∈ (t.erase k).entries ↔ (k', v') ∈ t.entries ∧ k' ≠ k := by
  simp [erase, List.mem_filter]

theorem mem_insert :
    (k', v') ∈ (t.insert k v).entries ↔ k' = k ∧ v' = v ∨ k' ≠ k ∧ (k', v') ∈ t.entries := by
  simp only [insert, List.mem_append, List.mem_cons, List.mem_filter, decide_eq_true_eq,
    Prod.mk.injEq]
  constructor
  · rintro (⟨there, below⟩ | same | ⟨there, above⟩)
    · exact .inr ⟨Nat.ne_of_lt below, there⟩
    · exact .inl same
    · exact .inr ⟨Nat.ne_of_gt above, there⟩
  · rintro (same | ⟨ne, there⟩)
    · exact .inr (.inl same)
    · rcases Nat.lt_or_gt_of_ne ne with below | above
      · exact .inl ⟨there, below⟩
      · exact .inr (.inr ⟨there, above⟩)

@[simp] theorem find_insert_self : (t.insert k v).find k = some v :=
  find_eq_some.mpr (mem_insert.mpr (.inl ⟨rfl, rfl⟩))

theorem find_insert_of_ne (ne : k' ≠ k) : (t.insert k v).find k' = t.find k' :=
  find_congr fun v' => by simp [mem_insert, ne]

theorem erase_of_find_none (absent : t.find k = none) : t.erase k = t := by
  refine ext_entries (List.filter_eq_self.mpr fun x hx => ?_)
  have ne : x.1 ≠ k := by
    rintro rfl
    exact find_eq_none.mp absent x.2 hx
  simpa using ne

/-- An entry of a table and another table with all the others. -/
theorem perm_cons {t' : Table α} (there : (k, v) ∈ t.entries)
    (others : ∀ k' v', (k', v') ∈ t'.entries ↔ (k', v') ∈ t.entries ∧ k' ≠ k) :
    t.entries.Perm ((k, v) :: t'.entries) := by
  refine (List.perm_ext_iff_of_nodup t.nodup_keys.of_map ?_).mpr ?_
  · exact List.nodup_cons.mpr ⟨fun h => ((others k v).mp h).2 rfl, t'.nodup_keys.of_map⟩
  · rintro ⟨k', v'⟩
    rw [List.mem_cons, others, Prod.mk.injEq]
    constructor
    · intro h
      by_cases same : k' = k
      · subst same
        exact .inl ⟨rfl, mem_unique h there⟩
      · exact .inr ⟨h, same⟩
    · rintro (⟨rfl, rfl⟩ | ⟨h, -⟩)
      · exact there
      · exact h

theorem perm_erase (there : t.find k = some v) : t.entries.Perm ((k, v) :: (t.erase k).entries) :=
  perm_cons (find_eq_some.mp there) fun _ _ => mem_erase

theorem perm_insert : (t.insert k v).entries.Perm ((k, v) :: (t.erase k).entries) := by
  refine perm_cons (mem_insert.mpr (.inl ⟨rfl, rfl⟩)) fun k' v' => ?_
  rw [mem_erase, mem_insert]
  constructor
  · rintro ⟨h, ne⟩
    exact ⟨.inr ⟨ne, h⟩, ne⟩
  · rintro ⟨⟨same, -⟩ | ⟨-, h⟩, ne⟩
    · exact absurd same ne
    · exact ⟨h, ne⟩

end Table
