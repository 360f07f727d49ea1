import Mathlib.Data.Prod.Lex
import Hux.World

/-!
# The table of imported regions

All peers share one table of imported regions, an ordered map from a peer and its
number for the region to an object. A notice that a region is gone is about some of
its entries.

* `Indexed`: what holds of the table in every state;
* `RemotesStep`: what a step can make of the table;
* `RegionInvalidateBody.Names`: whom a notice is about.
-/

namespace Hux

/-- Whether a notice is about what a peer's region was imported as; `whose` is the
peer whose connection it came in on, 0 if nobody's. -/
def RegionInvalidateBody.Names (b : RegionInvalidateBody) (whose : PeerId)
    (key : PeerId × RegionId) (desc : RegionDescriptor) : Prop :=
  key.2 = b.region ∧ desc.generation = b.generation ∧
    match b.origin with
    | some origin => desc.origin = origin
    | none => whose ≠ 0 ∧ key.1 = whose

instance (b : RegionInvalidateBody) (whose : PeerId) (key : PeerId × RegionId)
    (desc : RegionDescriptor) : Decidable (b.Names whose key desc) := by
  unfold RegionInvalidateBody.Names
  cases b.origin <;> infer_instance

namespace Directory
variable {W : Type} {d d' : Directory W} {x y : (PeerId × RegionId) × RemoteId}
  {key : PeerId × RegionId}

/-- The order of the entries. -/
abbrev Before (x y : (PeerId × RegionId) × RemoteId) : Prop := toLex x.1 < toLex y.1

/-- The table is in the order of its keys, and each entry has an object of its own,
made before. -/
structure Indexed (d : Directory W) : Prop where
  sorted : d.remotes.Pairwise Before
  objects : ∀ x ∈ d.remotes, x.2 < d.nextRemote
  once : ∀ x ∈ d.remotes, ∀ y ∈ d.remotes, x.2 = y.2 → x = y

/-- What a step makes of the table of imported regions. -/
inductive RemotesStep (d d' : Directory W) : Prop
  | same : d'.remotes = d.remotes → d'.remoteObjects = d.remoteObjects →
      d'.nextRemote = d.nextRemote → RemotesStep d d'
  | imported (peer : PeerId) (desc : RegionDescriptor) : d' = (d.importRegion peer desc).2 →
      RemotesStep d d'
  | cleared (obj : RemoteId) : d' = d.invalidate obj → RemotesStep d d'

theorem sorted_insertRemote (key : PeerId × RegionId) (obj : RemoteId)
    {l : List ((PeerId × RegionId) × RemoteId)} (sorted : l.Pairwise Before) :
    (insertRemote key obj l).Pairwise Before := by
  induction l with
  | nil => simp [insertRemote]
  | cons y rest ih =>
    obtain ⟨first, later⟩ := List.pairwise_cons.mp sorted
    simp only [insertRemote, ← Prod.Lex.toLex_lt_toLex]
    split
    · rename_i same
      exact List.pairwise_cons.mpr ⟨fun x hx => same ▸ first x hx, later⟩
    rename_i other
    split
    · rename_i before
      refine List.pairwise_cons.mpr ⟨fun x hx => ?_, sorted⟩
      rcases List.mem_cons.mp hx with rfl | hx
      · exact before
      · exact lt_trans before (first x hx)
    · rename_i after
      refine List.pairwise_cons.mpr ⟨fun x hx => ?_, ih later⟩
      rcases mem_insertRemote hx with rfl | hx
      · exact lt_of_le_of_ne (not_lt.mp after) fun same => other (toLex.injective same)
      · exact first x hx

namespace Indexed

/-- Flags do not matter. -/
theorem same (indexed : d.Indexed) (remotes : d'.remotes = d.remotes)
    (next : d'.nextRemote = d.nextRemote) : d'.Indexed :=
  ⟨remotes ▸ indexed.sorted, by rw [remotes, next]; exact indexed.objects, remotes ▸ indexed.once⟩

theorem step (step : RemotesStep d d') (indexed : d.Indexed) : d'.Indexed := by
  cases step with
  | same remotes _ next => exact indexed.same remotes next
  | cleared obj made => exact made ▸ indexed.same rfl rfl
  | imported peer desc made =>
    subst made
    have new {x : (PeerId × RegionId) × RemoteId} (hx : x ∈ d.remotes) : x.2 ≠ d.nextRemote :=
      (indexed.objects x hx).ne
    refine ⟨sorted_insertRemote _ _ indexed.sorted, fun x hx => ?_, fun x hx y hy same => ?_⟩
    · rcases mem_insertRemote hx with rfl | hx
      · exact Nat.lt_succ_self _
      · exact Nat.lt_succ_of_lt (indexed.objects x hx)
    · rcases mem_insertRemote hx with rfl | hx <;> rcases mem_insertRemote hy with rfl | hy
      · rfl
      · exact absurd same.symm (new hy)
      · exact absurd same (new hx)
      · exact indexed.once x hx y hy same

/-- An entry is found under its key. -/
theorem find_iff (indexed : d.Indexed) :
    d.remotes.find? (·.1 == key) = some x ↔ x ∈ d.remotes ∧ x.1 = key := by
  constructor
  · exact fun found => ⟨List.mem_of_find?_eq_some found, by simpa using List.find?_some found⟩
  · rintro ⟨listed, rfl⟩
    have nodup : (d.remotes.map (·.1)).Nodup :=
      List.pairwise_map.mpr (indexed.sorted.imp fun before same => before.ne (congrArg toLex same))
    cases found : d.remotes.find? (·.1 == x.1) with
    | none => simpa using List.find?_eq_none.mp found x listed
    | some y =>
      have key : y.1 = x.1 := by simpa using List.find?_some found
      rw [List.inj_on_of_nodup_map nodup (List.mem_of_find?_eq_some found) listed key]

end Indexed

/-! ## Whom a notice is about -/

/-- Whether a notice is about an entry. -/
def About (d : Directory W) (whose : PeerId) (b : RegionInvalidateBody)
    (x : (PeerId × RegionId) × RemoteId) : Prop :=
  b.Names whose x.1 (d.remoteObjects x.2).desc

variable {whose : PeerId} {b : RegionInvalidateBody}

/-- What the handler collects, and of that what has the notice's generation. -/
theorem mem_named_iff (indexed : d.Indexed) {o : RemoteId} :
    o ∈ d.named whose b ∧ (d.remoteObjects o).desc.generation = b.generation ↔
      ∃ x ∈ d.remotes, x.2 = o ∧ d.About whose b x := by
  unfold named About RegionInvalidateBody.Names
  cases b.origin with
  | some origin =>
    simp only [List.mem_map, List.mem_filter, Bool.and_eq_true, beq_iff_eq]
    constructor
    · rintro ⟨⟨x, ⟨listed, region, from_⟩, rfl⟩, generation⟩
      exact ⟨x, listed, rfl, region, generation, from_⟩
    · rintro ⟨x, listed, rfl, region, generation, from_⟩
      exact ⟨⟨x, ⟨listed, region, from_⟩, rfl⟩, generation⟩
  | none =>
    dsimp only
    constructor
    · rintro ⟨listed, generation⟩
      split at listed
      · rename_i known
        obtain ⟨x, found, rfl⟩ := Option.map_eq_some_iff.mp (Option.mem_toList.mp listed)
        obtain ⟨there, key⟩ := indexed.find_iff.mp found
        exact ⟨x, there, rfl, by rw [key], generation, known, by rw [key]⟩
      · cases listed
    · rintro ⟨x, listed, rfl, region, generation, known, mine⟩
      have found : d.remotes.find? (·.1 == (whose, b.region)) = some x :=
        indexed.find_iff.mpr ⟨listed, Prod.ext mine region⟩
      simp [known, found, generation]

/-- An entry is one of those exactly if the notice is about it. -/
theorem mem_named (indexed : d.Indexed) (listed : x ∈ d.remotes) :
    x.2 ∈ d.named whose b ∧ (d.remoteObjects x.2).desc.generation = b.generation ↔
      d.About whose b x := by
  rw [mem_named_iff indexed]
  constructor
  · rintro ⟨y, hy, same, about⟩
    exact indexed.once y hy x listed same ▸ about
  · exact fun about => ⟨x, listed, rfl, about⟩

theorem entry_of_named {o : RemoteId} (ho : o ∈ d.named whose b) : ∃ x ∈ d.remotes, x.2 = o := by
  unfold named at ho
  split at ho
  · obtain ⟨x, hx, same⟩ := List.mem_map.mp ho
    exact ⟨x, (List.mem_filter.mp hx).1, same⟩
  · split at ho
    · obtain ⟨x, found, same⟩ := Option.map_eq_some_iff.mp (Option.mem_toList.mp ho)
      exact ⟨x, List.mem_of_find?_eq_some found, same⟩
    · cases ho

end Directory

end Hux
