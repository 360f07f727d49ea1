import Hux.Amid
import Hux.Custody
import Hux.Local

/-!
# What handles may do, and how long registrations live

* `Serves`: a registration gives a handle its whole range, what it asked for and,
  remotely, nothing else;
* `reuse_never_widens`: so it is for every handle that exists, whichever
  registration it got;
* `registrations_live_while_referenced`: a key is given back once, when nothing
  references its registration any more.
-/

namespace Hux.Registrar
open Interleave (Tid Run Pool Matched Moved Amid Alone Stepped weigh alone_atom alone_ret
  alone_bind)

variable {W : Type} {cfg : Config W}

abbrev Pools := Pool Call Registrar Grant Reply

/-- Any order of any calls. -/
abbrev Reached (cfg : Config W) (p : Pools) : Prop :=
  Run (Call.body cfg) (fun _ _ => True) start p

theorem Reached.owned {p : Pools} (run : Reached cfg p) :
    ∃ held, Matched (moves cfg.caps) (fun _ _ _ M => Spent M) p held ∧
      Owned cfg.caps p.shared held.sum :=
  Run.invariant (Owned cfg.caps) (fun c t => keeps_body cfg c t) Owned.start
    (fun _ _ _ _ _ _ owned move _ => owned.keep move) run

/-! ## What a handle is served -/

/-- Neither less than the handle asked for nor, remotely, more. -/
structure Serves (r : Registration) (h : MemoryRegion) : Prop where
  device : r.device = h.device
  starts : r.base ≤ h.base
  ends : h.base + h.length ≤ r.base + r.length
  access : h.access &&& ~~~r.access = 0
  remoteRead : hasFlag r.access AccessFlags.remoteRead = hasFlag h.access AccessFlags.remoteRead
  remoteWrite : hasFlag r.access AccessFlags.remoteWrite = hasFlag h.access AccessFlags.remoteWrite

theorem hasFlag_of_masked {a b mask bit : AccessFlags} (same : a &&& mask = b &&& mask)
    (inside : mask &&& bit = bit) : hasFlag a bit = hasFlag b bit := by
  have : a &&& bit = b &&& bit := by
    calc a &&& bit = (a &&& mask) &&& bit := by rw [BitVec.and_assoc, inside]
      _ = (b &&& mask) &&& bit := by rw [same]
      _ = b &&& bit := by rw [BitVec.and_assoc, inside]
  rw [hasFlag, hasFlag, this]

theorem Served.serves {h : MemoryRegion} (served : Served h) : Serves h.reg h := by
  have range := registrationCovers_range served
  simp only [Served, registrationCovers] at served
  split at served; · cases served
  rename_i device
  split at served; · cases served
  rename_i access
  split at served; · cases served
  rename_i remote
  have device := not_not.mp device
  have remote := (not_not.mp remote).symm
  exact {
    device := device
    starts := range.1
    ends := range.2
    access := not_not.mp access
    remoteRead := hasFlag_of_masked remote (by decide)
    remoteWrite := hasFlag_of_masked remote (by decide) }

/-- The transport's key is for at least the handle's range, and for just what the
handle lets a peer do. -/
structure Mint.Backs (m : Mint) (h : MemoryRegion) : Prop where
  device : m.device = h.device
  starts : m.addr ≤ h.base
  ends : h.base + h.length ≤ m.addr + m.length
  remoteRead : hasFlag m.access AccessFlags.remoteRead = hasFlag h.access AccessFlags.remoteRead
  remoteWrite : hasFlag m.access AccessFlags.remoteWrite = hasFlag h.access AccessFlags.remoteWrite

theorem Grants.backs {caps : ProviderId → ProviderCaps} {r : Registration} {ms : List Mint}
    (grants : Grants caps r ms) {h : MemoryRegion} (serves : Serves r h) {m : Mint} (mem : m ∈ ms) :
    Mint.Backs m h := by
  obtain ⟨addr, length, device, access⟩ := grants.asked m mem
  exact {
    device := device.trans serves.device
    starts := by rw [addr]; exact serves.starts
    ends := by rw [addr, length]; exact serves.ends
    remoteRead := by rw [access]; exact serves.remoteRead
    remoteWrite := by rw [access]; exact serves.remoteWrite }

theorem Owned.handle_used {s : Registrar} {M : Multiset Hand} {caps : ProviderId → ProviderCaps}
    (owned : Owned caps s M) {id : RegionId} (live : 0 < s.regionUses id) :
    0 < s.registrationUses (s.regionObjects id).registration := by
  have there : id ∈ s.handles (s.regionObjects id).registration :=
    mem_handles.mpr ⟨owned.regions.born live, live, rfl⟩
  have := Finset.card_pos.mpr ⟨id, there⟩
  have := owned.registrations.uses (s.regionObjects id).registration
  omega

/-- Whatever was registered, deregistered, released and evicted before: a handle that
exists is served exactly, and each key it exports was granted for that. -/
theorem reuse_never_widens {p : Pools} (run : Reached cfg p) {id : RegionId}
    (live : 0 < p.shared.regionUses id) :
    let h := (p.shared.regionObjects id).region
    let r := (p.shared.registrations (p.shared.regionObjects id).registration).reg
    h.reg = r ∧ Serves r h ∧
      (∀ k ∈ h.descriptor.providerKeys, ∃ m ∈ p.shared.minted,
        (cfg.caps m.provider).name = k.provider ∧ m.remoteKey = k.remoteKey ∧ Mint.Backs m h) ∧
      ∃ m ∈ p.shared.minted, m.remoteKey = h.descriptor.remoteKey ∧ Mint.Backs m h := by
  intro h r
  obtain ⟨held, -, owned⟩ := run.owned
  obtain ⟨same, served⟩ := owned.pointed.region id live
  have serves : Serves r h := by
    have := served.serves
    rwa [same] at this
  obtain ⟨-, grants, -, -⟩ := (owned.staged.stage _).of_used (owned.handle_used live)
  have minted {m : Mint} (mem : m ∈ p.shared.mintedOf (p.shared.regionObjects id).registration) :
      m ∈ p.shared.minted := (List.mem_filter.mp mem).1
  refine ⟨same, serves, fun k mem => ?_, ?_⟩
  · simp only [MemoryRegion.descriptor, List.mem_map] at mem
    obtain ⟨key, mem, rfl⟩ := mem
    rw [same, grants.keys] at mem
    obtain ⟨m, granted, rfl⟩ := List.mem_map.mp mem
    exact ⟨m, minted granted, rfl, rfl, grants.backs serves granted⟩
  · obtain ⟨m, mem, -, key⟩ := grants.first
    refine ⟨m, minted mem, ?_, grants.backs serves mem⟩
    rw [← key]
    exact congrArg Registration.remoteKey same.symm

/-- An engine like `Pair`'s that keeps so many registrations. -/
def pairConfig (entries : Nat) : Config ℚ where
  toSetup := Pair.setup
  registrationCacheEntries := entries
  cfgDevice := ⟨0, 0⟩
  maxRegistrationBytes := 0

/-- A schedule in which the transport grants every registration the same keys. -/
def play (entries : Nat) (cues : List (Interleave.Cue Call)) : Option Pools :=
  (Pool.start start).play (Call.body (pairConfig entries)) (fun _ _ => true)
    [.nothing, .registered (.ok (5, 6)), .verdict none] cues

theorem reached_of_play (entries : Nat) (cues : List (Interleave.Cue Call)) (P : Pools → Prop)
    [DecidablePred P] (played : ((play entries cues).any fun p => decide (P p)) = true) :
    ∃ p, Reached (pairConfig entries) p ∧ P p := by
  obtain ⟨p, h, shown⟩ := Option.any_eq_true _ _ |>.mp played
  exact ⟨p, Run.start.further (Interleave.Passage.mono (fun _ _ _ => trivial) (.play h)),
    of_decide_eq_true shown⟩

/-- The second handle lies inside the first one's registration. -/
theorem reuse_never_widens_inside :
    ∃ p : Pools, p.shared.registrationsReused = 1 ∧
      Serves (p.shared.registrations (p.shared.regionObjects 2).registration).reg
        (p.shared.regionObjects 2).region ∧
      (p.shared.regionObjects 2).region.base = 4098 := by
  obtain ⟨p, run, reused, live, base⟩ := reached_of_play 1
    [.spawn (.registerMemory 4096 8 5), .run 0 14, .spawn (.registerMemory 4098 2 4), .run 1 7]
    (fun p => p.shared.registrationsReused = 1 ∧ 0 < p.shared.regionUses 2 ∧
      (p.shared.regionObjects 2).region.base = 4098)
    (by decide +kernel)
  exact ⟨p, reused, (reuse_never_widens run live).2.1, base⟩

/-! ## Giving keys back -/

section
variable {caps : ProviderId → ProviderCaps} {s : Registrar} {M : Multiset Hand} {r : RegistrationId}

/-- The engine's table, the application or a request that still exists has a pointer
to the region. -/
def Held (s : Registrar) (id : RegionId) : Prop :=
  id ∈ s.regions ∨ 0 < s.kept id ∨ ∃ o ∈ s.requests, o.alive = true ∧ id ∈ o.heldRegions

variable {id : RegionId}

theorem mem_requested :
    id ∈ s.requested ↔ ∃ o ∈ s.requests, o.alive = true ∧ id ∈ o.heldRegions := by
  have split (l : List RequestObject) : id ∈ (l.map owns).sum ↔
      ∃ o ∈ l, o.alive = true ∧ id ∈ o.heldRegions := by
    induction l with
    | nil => simp
    | cons o l ih =>
      have : id ∈ owns o ↔ o.alive = true ∧ id ∈ o.heldRegions := by
        cases alive : o.alive <;> simp [owns, alive]
      simp only [List.map_cons, List.sum_cons, Multiset.mem_add, ih, this, List.mem_cons,
        exists_eq_or_imp]
  exact split s.requests

theorem shelved_pos : 0 < s.shelved id ↔ Held s id := by
  have listed : 0 < s.regions.count id ↔ id ∈ s.regions := List.count_pos_iff
  have requested := (Multiset.count_pos (s := s.requested) (a := id)).trans mem_requested
  rw [Held, ← listed, ← requested, shelved]
  omega

/-- The cache or a region that exists has a pointer to the registration. -/
def Referenced (s : Registrar) (r : RegistrationId) : Prop :=
  r ∈ s.regCache ∨ ∃ id, 0 < s.regionUses id ∧ (s.regionObjects id).registration = r

theorem Owned.used_of_referenced (owned : Owned caps s M) (h : Referenced s r) :
    0 < s.registrationUses r := by
  rcases h with cached | ⟨id, live, rfl⟩
  · exact owned.registrations.pos_of_cached cached
  · exact owned.handle_used live

theorem count_deregistered (l : List (RegistrationId × ProviderId × Nat)) (r : RegistrationId)
    (k : ProviderId × Nat) :
    l.count (r, k) = ((l.filter (·.1 == r)).map (·.2)).count k := by
  induction l with
  | nil => rfl
  | cons x l ih =>
    obtain ⟨r', k'⟩ := x
    by_cases same : r' = r
    · subst same
      simp [List.count_cons, ih]
    · simp [ih, same]

theorem Staged.nodup_pairs (staged : Staged caps s M) (r : RegistrationId) :
    ((s.mintedOf r).map Mint.pair).Nodup := by
  have part : ((s.mintedOf r).map fun m => (m.registration, m.provider)).Nodup :=
    staged.once.sublist (List.filter_sublist.map _)
  have providers : (((s.mintedOf r).map Mint.pair).map Prod.fst).Nodup := by
    refine List.Nodup.of_map (fun prov => (r, prov)) ?_
    simp only [List.map_map]
    refine (List.map_congr_left fun m mem => ?_) ▸ part
    have : m.registration = r := by simpa using (List.mem_filter.mp mem).2
    simp [Mint.pair, this]
  exact providers.of_map

/-- A key is given back once at most, and only one that was got. -/
theorem Owned.once (owned : Owned caps s M) (r : RegistrationId) (k : ProviderId × Nat) :
    s.deregistered.count (r, k) ≤ 1 ∧
      ((r, k) ∈ s.deregistered → ∃ m ∈ s.minted, m.registration = r ∧ m.pair = k) := by
  have given := (owned.staged.stage r).given
  have count := count_deregistered s.deregistered r k
  constructor
  · rw [count]
    have once := List.nodup_iff_count_le_one.mp (owned.staged.nodup_pairs r) k
    exact (given.sublist.count_le k).trans once
  · intro mem
    rw [← List.count_pos_iff, count, List.count_pos_iff] at mem
    obtain ⟨m, granted, rfl⟩ := List.mem_map.mp (given.subset mem)
    obtain ⟨there, same⟩ := List.mem_filter.mp granted
    exact ⟨m, there, by simpa using same, rfl⟩

/-- No key of a registration in use is given back. -/
theorem Owned.not_given (owned : Owned caps s M) (used : 0 < s.registrationUses r)
    (k : ProviderId × Nat) : (r, k) ∉ s.deregistered := by
  obtain ⟨-, -, -, none⟩ := (owned.staged.stage r).of_used used
  rw [← List.count_eq_zero, count_deregistered]
  change (s.deregisteredOf r).count k = 0
  rw [none]
  rfl

theorem Spent.weigh_points {r : RegistrationId} (spent : Spent M) : weigh (points r) M = 0 := by
  refine Interleave.weigh_eq_zero fun h mem => ?_
  obtain ⟨r', rfl⟩ := spent h mem
  rfl

theorem Spent.count_region (spent : Spent M) : M.count (.region id) = 0 := by
  refine Multiset.count_eq_zero.mpr fun mem => ?_
  obtain ⟨r', same⟩ := spent _ mem
  cases same

/-- With no call in between, all pointers are accounted for. -/
theorem Owned.uses_of_spent (owned : Owned caps s M) (spent : Spent M) (r : RegistrationId) :
    s.registrationUses r = s.regCache.count r + (s.handles r).card := by
  have := owned.registrations.uses r
  rwa [spent.weigh_points, add_zero] at this

theorem Owned.held_of_spent (owned : Owned caps s M) (spent : Spent M) :
    0 < s.regionUses id ↔ Held s id := by
  have := owned.regions.uses id
  rw [spent.count_region, add_zero] at this
  rw [this, shelved_pos]

theorem Owned.given_of_spent (owned : Owned caps s M) (spent : Spent M) {m : Mint}
    (got : m ∈ s.minted) (loose : ¬Referenced s m.registration) :
    (m.registration, m.pair) ∈ s.deregistered := by
  have unused : s.registrationUses m.registration = 0 := by
    rw [owned.uses_of_spent spent]
    have uncached : s.regCache.count m.registration = 0 :=
      List.count_eq_zero.mpr fun cached => loose (.inl cached)
    have none : s.handles m.registration = ∅ := by
      refine Finset.eq_empty_of_forall_notMem fun id mem => loose (.inr ⟨id, ?_⟩)
      exact (mem_handles.mp mem).2
    rw [uncached, none]
    rfl
  have granted : m ∈ s.mintedOf m.registration := by simp [mintedOf, got]
  have given : s.deregisteredOf m.registration = (s.mintedOf m.registration).map Mint.pair := by
    have left : ∀ h ∈ making m.registration M, ∃ r, h = .building r [] := fun h mem =>
      spent h (Multiset.mem_filter.mp mem).1
    have stage := owned.staged.stage m.registration
    generalize making m.registration M = H at stage left
    cases stage with
    | idle _ given => exact given.symm
    | live used => exact absurd unused used.ne'
    | building _ got _ =>
      obtain ⟨r', same⟩ := left _ (Multiset.mem_singleton_self _)
      cases same
      rw [got] at granted
      cases granted
    | dying =>
      obtain ⟨r', same⟩ := left _ (Multiset.mem_singleton_self _)
      cases same
  rw [← List.count_pos_iff, count_deregistered, List.count_pos_iff]
  change m.pair ∈ s.deregisteredOf m.registration
  rw [given]
  exact List.mem_map_of_mem granted

end

/-! ## Releasing the cache -/

section
variable {caps : ProviderId → ProviderCaps} {t : Tid} {s s' : Registrar}

variable {M : Multiset Hand}

/-- Whoever does not have the lock leaves it and the cache alone. -/
theorem Move.cache_kept {u : Tid} {M' : Multiset Hand} (move : Move caps u s M s' M')
    (other : u ≠ t) (taken : s.mu = some t) : s'.mu = some t ∧ s'.regCache = s.regCache := by
  have mine {v : Tid} (same : s.mu = some v) : v = t := Option.some.inj (same.symm.trans taken)
  cases move with
  | lock free => simp [taken] at free
  | unlock locked | push locked | evict locked => exact absurd (mine locked) other
  | _ => exact ⟨taken, rfl⟩

/-- A step of another thread. -/
def Other (cfg : Config W) (t : Tid) (s s' : Registrar) : Prop :=
  Stepped (Call.body cfg) s s' ∧ ∃ u ≠ t, Moved (moves cfg.caps) (Owned cfg.caps) u s s'

theorem stable_cache (c : List RegistrationId) :
    Interleave.Stable (Other cfg t) fun s => s.mu = some t ∧ s.regCache = c := by
  rintro s s' ⟨-, u, other, F, M, M', owned, move⟩ ⟨taken, cache⟩
  have move := move fun x mem => owned.holds (Multiset.mem_add.mpr (.inr mem))
  obtain ⟨still, same⟩ := move.cache_kept other taken
  exact ⟨still, same.trans cache⟩

variable {l : List (Registrar × Registrar)}

/-- A step under the lock, and what the thread still knows after it. -/
theorem amid_inside {α : Type} {f : Registrar → α × Registrar} {c c' : List RegistrationId}
    {a : α} (amid : Amid (Other cfg t) t (inside f) s l a s')
    (before : s.mu = some t ∧ s.regCache = c)
    (after : ∀ s, s.mu = some t → s.regCache = c → (f s).2.mu = some t ∧ (f s).2.regCache = c') :
    ∃ s₁, s₁.regCache = c ∧ (f s₁).1 = a ∧ l = [(s₁, (f s₁).2)] ∧
      s'.mu = some t ∧ s'.regCache = c' := by
  obtain ⟨s₁, s₂, e, on, step, rest, rfl⟩ := amid.single
  split at step
  · rename_i mine
    have same := Option.some.inj step
    obtain ⟨-, cache⟩ := (stable_cache c).later on before
    have held := after s₁ mine cache
    rw [same] at held
    exact ⟨s₁, cache, by rw [same], by rw [same], (stable_cache c').later rest held⟩
  · cases step

/-- Was the entry in use by something else when it was looked at? -/
def sharedAt (x : RegistrationId × Registrar) : Bool := x.2.registrationUses x.1 != 1

theorem amid_sweep {rest front dropped out : List RegistrationId}
    (amid : Amid (Other cfg t) t (sweep rest dropped) s l out s')
    (here : s.mu = some t ∧ s.regCache = front ++ rest) (once : (front ++ rest).Nodup) :
    ∃ looks : List (RegistrationId × Registrar), looks.map Prod.fst = rest ∧
      (∀ x ∈ looks, (x.2, x.2) ∈ l ∧ x.1 ∈ x.2.regCache) ∧
      out = dropped ++ (looks.filter (!sharedAt ·)).map Prod.fst ∧
      s'.mu = some t ∧ s'.regCache = front ++ (looks.filter sharedAt).map Prod.fst := by
  induction rest generalizing front dropped s l with
  | nil =>
    cases amid with
    | ret on =>
      exact ⟨[], rfl, by simp, by simp, by simpa using (stable_cache _).later on here⟩
  | cons r rest ih =>
    obtain ⟨l₁, l₂, only, s₁, rfl, looked, later⟩ := amid.bind
    obtain ⟨at', cache, rfl, rfl, held⟩ := amid_inside looked here fun _ mine same => ⟨mine, same⟩
    have there : r ∈ at'.regCache := by simp [cache]
    by_cases unshared : at'.registrationUses r = 1
    · rw [if_pos (by simpa using unshared)] at later
      obtain ⟨l₃, l₄, ⟨⟩, s₂, rfl, evicted, remaining⟩ := later.bind
      have absent : r ∉ front := fun mem =>
        (List.nodup_append.mp once).2.2 r mem r List.mem_cons_self rfl
      obtain ⟨at₂, -, -, rfl, held⟩ := amid_inside evicted held fun s mine same =>
        ⟨mine, show s.regCache.erase r = front ++ rest by
          rw [same, List.erase_append_right _ absent, List.erase_cons_head]⟩
      obtain ⟨looks, each, own, result, after⟩ := ih remaining held
        (once.sublist ((List.sublist_cons_self r rest).append_left front))
      have out : sharedAt (r, at') = false := by simp [sharedAt, unshared]
      refine ⟨(r, at') :: looks, by simp [each], ?_, ?_, ?_⟩
      · rintro x (_ | ⟨_, mem⟩)
        · exact ⟨by simp, there⟩
        · exact ⟨by simp [(own x mem).1], (own x mem).2⟩
      · simp [out, result]
      · simpa [out] using after
    · rw [if_neg (by simpa using unshared)] at later
      have held : s₁.mu = some t ∧ s₁.regCache = (front ++ [r]) ++ rest := by simpa using held
      obtain ⟨looks, each, own, result, after⟩ := ih later held (by simpa using once)
      have kept : sharedAt (r, at') = true := by simp [sharedAt, unshared]
      refine ⟨(r, at') :: looks, by simp [each], ?_, ?_, ?_⟩
      · rintro x (_ | ⟨_, mem⟩)
        · exact ⟨by simp, there⟩
        · exact ⟨by simp [(own x mem).1], (own x mem).2⟩
      · simp [kept, result]
      · simpa [kept] using after

/-- The steps of a call that released what the cache alone had: where it took the lock
and gave it back, the state in which it looked at each entry, and how many went. -/
def Releases (t : Tid) (l : List (Registrar × Registrar)) (n : Nat) : Prop :=
  ∃ (taken given : Registrar) (looks : List (RegistrationId × Registrar)),
    (taken, { taken with mu := some t }) ∈ l ∧ (given, { given with mu := none }) ∈ l ∧
    looks.map Prod.fst = taken.regCache ∧
    (∀ x ∈ looks, (x.2, x.2) ∈ l ∧ x.1 ∈ x.2.regCache ∧ (sharedAt x = false →
      ∀ id, 0 < x.2.regionUses id → (x.2.regionObjects id).registration ≠ x.1)) ∧
    given.regCache = (looks.filter sharedAt).map Prod.fst ∧
    n = u32 (looks.filter (!sharedAt ·)).length

theorem Owned.nodup_cache (owned : Owned caps s M) : s.regCache.Nodup := by
  refine List.nodup_iff_count_le_one.mpr fun r => ?_
  have := owned.registrations.cached r
  omega

/-- An entry that only the cache has is the registration of no region. -/
theorem Owned.alone {r : RegistrationId} (owned : Owned caps s M) (cached : r ∈ s.regCache)
    (one : s.registrationUses r = 1) {id : RegionId} (live : 0 < s.regionUses id) :
    (s.regionObjects id).registration ≠ r := by
  rintro rfl
  have there : id ∈ s.handles (s.regionObjects id).registration :=
    mem_handles.mpr ⟨owned.regions.born live, live, rfl⟩
  have := Finset.card_pos.mpr ⟨id, there⟩
  have := List.count_pos_iff.mpr cached
  have := owned.registrations.uses (s.regionObjects id).registration
  omega

theorem amid_releaseCachedRegistrations {n : Nat}
    (amid : Amid (Other cfg t) t releaseCachedRegistrations s l (.released .ok n) s')
    (own : ∀ x ∈ l, ∃ M, Owned cfg.caps x.1 M) : Releases t l n := by
  obtain ⟨l₁, l₂, ⟨⟩, s₁, rfl, taking, amid₁⟩ := amid.bind
  obtain ⟨taken, s₂, e, -, step, on, rfl⟩ := taking.single
  split at step
  · cases step
    have held := (stable_cache taken.regCache).later on ⟨rfl, rfl⟩
    obtain ⟨l₃, l₄, cache, s₃, rfl, reading, amid₂⟩ := amid₁.bind
    obtain ⟨at', read, rfl, rfl, held⟩ := amid_inside reading held fun _ mine same => ⟨mine, same⟩
    obtain ⟨l₅, l₆, dropped, s₄, rfl, sweeping, amid₃⟩ := amid₂.bind
    obtain ⟨M, owned⟩ := own _ (List.mem_append_left _ (List.mem_singleton_self _))
    have once := owned.nodup_cache
    rw [← List.nil_append taken.regCache, ← read] at held once
    obtain ⟨looks, each, looked, rfl, held⟩ := amid_sweep sweeping held once
    obtain ⟨l₇, l₈, ⟨⟩, s₅, rfl, giving, amid₄⟩ := amid₃.bind
    obtain ⟨given, s₆, e, on, step, -, rfl⟩ := giving.single
    split at step
    · cases step
      obtain ⟨l₉, l₀, ⟨⟩, s₇, rfl, dropping, amid₅⟩ := amid₄.bind
      cases amid₅ with
      | ret =>
        have still := ((stable_cache _).later on held).2
        refine ⟨taken, given, looks, by simp, by simp, each.trans read, fun x mem => ?_,
          still, by simp⟩
        obtain ⟨step, cached⟩ := looked x mem
        obtain ⟨M, owned⟩ := own (x.2, x.2) (by simp [step])
        refine ⟨by simp [step], cached, fun unshared id live => ?_⟩
        exact owned.alone cached (by simpa [sharedAt] using unshared) live
    · cases step
  · cases step

/-! ## Making room -/

theorem alone_inside {α : Type} {f : Registrar → α × Registrar} {a : α}
    (alone : Alone t (inside f) s a s') : s.mu = some t ∧ f s = (a, s') := by
  obtain ⟨e, b, s₁, step, rest⟩ := alone_atom.mp alone
  obtain ⟨rfl, rfl⟩ := alone_ret.mp rest
  split at step
  · exact ⟨‹_›, Option.some.inj step⟩
  · cases step

theorem alone_firstUnshared {cache : List RegistrationId} {found : Option RegistrationId}
    (alone : Alone t (firstUnshared cache) s found s') : s' = s ∧
      (∀ r, found = some r → r ∈ cache) ∧
      (found = none → ∀ r ∈ cache, s.registrationUses r ≠ 1) := by
  induction cache generalizing s with
  | nil =>
    obtain ⟨rfl, rfl⟩ := alone_ret.mp alone
    exact ⟨rfl, by simp, by simp⟩
  | cons r rest ih =>
    obtain ⟨only, s₁, asked, rest⟩ := alone_bind.mp alone
    obtain ⟨-, answer⟩ := alone_inside asked
    obtain ⟨rfl, rfl⟩ := Prod.mk.inj answer
    by_cases unshared : s.registrationUses r = 1
    · rw [if_pos (by simpa using unshared)] at rest
      obtain ⟨rfl, rfl⟩ := alone_ret.mp rest
      exact ⟨rfl, by simp, by simp⟩
    · rw [if_neg (by simpa using unshared)] at rest
      obtain ⟨rfl, some, none⟩ := ih rest
      refine ⟨rfl, fun r' is => List.mem_cons_of_mem _ (some r' is), fun is r' mem => ?_⟩
      rcases List.mem_cons.mp mem with rfl | mem
      · exact unshared
      · exact none is r' mem

/-- With turns enough, room is made or every entry is in use. -/
theorem alone_makeRoom {entries turns : Nat} {evicted out : List RegistrationId}
    (alone : Alone t (makeRoom entries turns evicted) s out s') (enough : s.regCache.length ≤ turns)
    (once : s.regCache.Nodup) (gone : ∀ r ∈ evicted, r ∉ s.regCache) :
    ∃ c, s' = { s with regCache := c } ∧ c.Sublist s.regCache ∧ (∀ r ∈ out, r ∉ c) ∧
      (c.length ≤ entries ∨ ∀ r ∈ c, s.registrationUses r ≠ 1) := by
  induction turns generalizing s evicted with
  | zero =>
    obtain ⟨rfl, rfl⟩ := alone_ret.mp alone
    exact ⟨s'.regCache, rfl, List.Sublist.refl _, gone, .inl (enough.trans (Nat.zero_le _))⟩
  | succ turns ih =>
    obtain ⟨cache, s₁, read, rest⟩ := alone_bind.mp alone
    obtain ⟨-, answer⟩ := alone_inside read
    obtain ⟨rfl, rfl⟩ := Prod.mk.inj answer
    split at rest
    · rename_i fits
      obtain ⟨rfl, rfl⟩ := alone_ret.mp rest
      exact ⟨s'.regCache, rfl, List.Sublist.refl _, gone, .inl fits⟩
    · obtain ⟨found, s₂, searched, rest⟩ := alone_bind.mp rest
      obtain ⟨rfl, some, none⟩ := alone_firstUnshared searched
      cases found with
      | none =>
        obtain ⟨rfl, rfl⟩ := alone_ret.mp rest
        exact ⟨s'.regCache, rfl, List.Sublist.refl _, gone, .inr (none rfl)⟩
      | some r =>
        obtain ⟨⟨⟩, s₃, evicting, rest⟩ := alone_bind.mp rest
        obtain ⟨-, erased⟩ := alone_inside evicting
        obtain ⟨-, rfl⟩ := Prod.mk.inj erased
        have there := some r rfl
        obtain ⟨c, same, sub, out, room⟩ := ih rest
          (by
            have := List.length_erase_of_mem there
            have := List.length_pos_of_mem there
            simp only
            omega)
          (once.erase r)
          (by
            intro r' mem
            rcases List.mem_append.mp mem with old | here
            · exact fun still => gone r' old (List.mem_of_mem_erase still)
            · rw [List.mem_singleton.mp here]
              exact once.not_mem_erase)
        exact ⟨c, same, sub.trans List.erase_sublist, out, room⟩

/-- What dropping pointers to some registrations does not concern. -/
def apart (gone : List RegistrationId) (s : Registrar) :
    List RegistrationId × (RegistrationId → Nat) :=
  (s.regCache, fun r => if r ∈ gone then 0 else s.registrationUses r)

theorem steps_deregisterRegions (gone : List RegistrationId) (r : RegistrationId)
    (held : List (ProviderId × Nat)) :
    Interleave.Steps (fun s s' => apart gone s' = apart gone s) (deregisterRegions r held) := by
  induction held with
  | nil => exact trivial
  | cons h held ih =>
    refine .bind ⟨?_, fun _ => trivial⟩ fun _ => ih
    rintro t s e b s' ⟨⟩
    rfl

theorem steps_dropRegistrationPtrs {gone rs : List RegistrationId} (these : ∀ r ∈ rs, r ∈ gone) :
    Interleave.Steps (fun s s' => apart gone s' = apart gone s) (dropRegistrationPtrs rs) := by
  induction rs with
  | nil => exact trivial
  | cons r rs ih =>
    obtain ⟨this, these⟩ := List.forall_mem_cons.mp these
    refine .bind (.bind ⟨?_, fun _ => trivial⟩ fun held => ?_) fun _ => ih these
    · rintro t s e b s' ⟨⟩
      refine Prod.ext rfl (funext fun r' => ?_)
      simp only [apart, registrationUses_countRegistration]
      split
      · rfl
      · rename_i other
        have ne : r' ≠ r := fun same => other (same ▸ this)
        exact if_neg ne
    · cases held with
      | none => exact trivial
      | some held => exact steps_deregisterRegions gone r held

/-- Run with nothing in between, it leaves the cache within its bound or all in use. -/
theorem alone_cacheRegistration {entries : Nat} {r : RegistrationId}
    (alone : Alone t (cacheRegistration entries r) s () s') (once : s.regCache.Nodup)
    (used : ∀ r ∈ s.regCache, 0 < s.registrationUses r) (new : r ∉ s.regCache) :
    s'.regCache.length ≤ entries ∨ ∀ r ∈ s'.regCache, 1 < s'.registrationUses r := by
  obtain ⟨⟨⟩, s₁, taking, rest⟩ := alone_bind.mp alone
  obtain ⟨e, ⟨⟩, s₁', step, finished⟩ := alone_atom.mp taking
  obtain ⟨-, rfl⟩ := alone_ret.mp finished
  split at step
  · cases step
    obtain ⟨size, s₂, pushing, rest⟩ := alone_bind.mp rest
    obtain ⟨-, pushed⟩ := alone_inside pushing
    obtain ⟨rfl, rfl⟩ := Prod.mk.inj pushed
    obtain ⟨evicted, s₃, making, rest⟩ := alone_bind.mp rest
    obtain ⟨c, rfl, sub, out, room⟩ := alone_makeRoom making (by simp)
      (by
        have apart : ∀ x ∈ s.regCache, x ≠ r := fun x mem same => new (same ▸ mem)
        simpa [List.nodup_append, once] using apart)
      (by simp)
    obtain ⟨⟨⟩, s₄, giving, dropping⟩ := alone_bind.mp rest
    obtain ⟨-, given⟩ := alone_inside giving
    obtain ⟨-, rfl⟩ := Prod.mk.inj given
    obtain ⟨cache, uses⟩ :=
      Prod.mk.inj ((steps_dropRegistrationPtrs fun r mem => mem).alone dropping)
    rw [cache]
    refine room.imp_right fun shared r' mem => ?_
    have same := congrFun uses r'
    have stays : r' ∉ evicted := fun gone => out r' gone mem
    rw [if_neg stays, if_neg stays] at same
    have uses : s'.registrationUses r' =
        if r' = r then s.registrationUses r + 1 else s.registrationUses r' :=
      same.trans (registrationUses_countRegistration s r _ r')
    have some : 0 < s'.registrationUses r' := by
      rw [uses]
      split
      · exact Nat.succ_pos _
      · rename_i ne
        rcases List.mem_append.mp (sub.subset mem) with old | here
        · exact used r' old
        · exact absurd (List.mem_singleton.mp here) ne
    have several : s'.registrationUses r' ≠ 1 := same ▸ shared r' mem
    omega
  · cases step

end

/-! ## The life of a registration -/

/-- Over any order of calls: a key goes back once at most, and never while the cache or
a region references its registration; with no call running, a region exists as long as
somebody holds it, and the keys of an unreferenced registration have gone back. What
is released is what only the cache had when it was looked at. -/
theorem registrations_live_while_referenced {p : Pools} (run : Reached cfg p) :
    (∀ r k, p.shared.deregistered.count (r, k) ≤ 1 ∧ ((r, k) ∈ p.shared.deregistered →
      ∃ m ∈ p.shared.minted, m.registration = r ∧ m.pair = k)) ∧
    (∀ r, Referenced p.shared r → ∀ k, (r, k) ∉ p.shared.deregistered) ∧
    (∀ id, Held p.shared id → 0 < p.shared.regionUses id) ∧
    (p.Quiet → (∀ id, 0 < p.shared.regionUses id → Held p.shared id) ∧
      (∀ r, p.shared.registrationUses r =
        p.shared.regCache.count r + (p.shared.handles r).card) ∧
      ∀ m ∈ p.shared.minted, ¬Referenced p.shared m.registration →
        (m.registration, m.pair) ∈ p.shared.deregistered) ∧
    (∀ t n, p.returned t = some (.releaseCachedRegistrations, .released .ok n) →
      ∃ s l, Amid (Stepped (Call.body cfg)) t releaseCachedRegistrations s l (.released .ok n)
        p.shared ∧ Releases t l n) ∧
    ∀ t r s', r ∉ p.shared.regCache →
      Alone t (cacheRegistration cfg.registrationCacheEntries r) p.shared () s' →
      s'.regCache.length ≤ cfg.registrationCacheEntries ∨
        ∀ r ∈ s'.regCache, 1 < s'.registrationUses r := by
  obtain ⟨held, matched, owned⟩ := run.owned
  refine ⟨owned.once, fun r ref => owned.not_given (owned.used_of_referenced ref),
    fun id there => owned.regions.pos_of_shelved (shelved_pos.mpr there), fun quiet => ?_,
    fun t n done => ?_, fun t r s' new alone => ?_⟩
  · have spent : Spent held.sum := matched.quiet (fun _ _ _ _ spent => spent) quiet
    exact ⟨fun id => (owned.held_of_spent spent).mp, owned.uses_of_spent spent,
      fun m got => owned.given_of_spent spent got⟩
  · obtain ⟨s, l, own, amid⟩ := run.amid_moved (Owned cfg.caps) (fun c t => keeps_body cfg c t)
      Owned.start (fun _ _ _ _ _ _ owned move _ => owned.keep move) done
    refine ⟨s, l, amid.mono fun _ _ step => step.1,
      amid_releaseCachedRegistrations amid fun x mem => ?_⟩
    obtain ⟨F, M, M', owned, -⟩ := own x mem
    exact ⟨F + M, owned⟩
  · exact alone_cacheRegistration alone owned.nodup_cache
      (fun r cached => owned.registrations.pos_of_cached cached) new

/-- Deregistered and dropped, a registration is left to the cache until it is released. -/
theorem registrations_live_while_referenced_released :
    ∃ p : Pools, Reached (pairConfig 1) p ∧ (0, 0, 5) ∈ p.shared.deregistered ∧
      p.shared.deregistered.count (0, 0, 5) ≤ 1 ∧ ∃ l, Releases 3 l 1 := by
  obtain ⟨p, run, quiet, minted, ⟨uncached, two, zero, one⟩, done⟩ := reached_of_play 1
    [.spawn (.registerMemory 4096 8 5), .run 0 14, .spawn (.deregisterMemory 1), .run 1 4,
      .spawn (.dropHandle 1), .run 2 3, .spawn .releaseCachedRegistrations, .run 3 7]
    (fun p => p.Quiet ∧ p.shared.minted = [⟨0, 0, 4096, 8, ⟨0, 0⟩, 5, 5, 6⟩] ∧
      (p.shared.regCache = [] ∧ p.shared.nextRegion = 2 ∧ p.shared.regionUses 0 = 0 ∧
        p.shared.regionUses 1 = 0) ∧
      p.returned 3 = some (.releaseCachedRegistrations, .released .ok 1))
    (by decide +kernel)
  obtain ⟨held, -, owned⟩ := run.owned
  obtain ⟨once, -, -, given, releases, -⟩ := registrations_live_while_referenced run
  have loose : ¬Referenced p.shared 0 := by
    rintro (cached | ⟨id, live, -⟩)
    · simp [uncached] at cached
    · have born := owned.regions.born live
      rw [two] at born
      rcases Nat.le_one_iff_eq_zero_or_eq_one.mp (Nat.lt_succ_iff.mp born) with rfl | rfl
      · exact absurd zero live.ne'
      · exact absurd one live.ne'
  obtain ⟨s, l, -, released⟩ := releases 3 1 done
  exact ⟨p, run, (given quiet).2.2 ⟨0, 0, 4096, 8, ⟨0, 0⟩, 5, 5, 6⟩ (by simp [minted]) loose,
    (once 0 (0, 5)).1, l, released⟩

/-- The table has given the region up, the application has dropped it and its only
request has finished: but the request is still there, and so is the registration. -/
theorem finished_request_keeps_registration :
    ∃ p : Pools, Reached (pairConfig 0) p ∧ p.Quiet ∧ p.shared.nextRegion = 2 ∧
      p.shared.regions = [] ∧ p.shared.kept 1 = 0 ∧ p.shared.regCache = [] ∧
      p.shared.requests.length = 1 ∧ p.shared.inflight = [] ∧ p.shared.finished = [0] ∧
      p.shared.minted.map Mint.pair = [(0, 5)] ∧ p.shared.deregistered = [] :=
  reached_of_play 0
    [.spawn (.registerMemory 4096 8 5), .run 0 10, .spawn (.submitVector [1]), .run 1 6,
      .spawn (.finishRequest 0), .run 2 2, .spawn (.deregisterMemory 1), .run 3 4,
      .spawn (.dropHandle 1), .run 4 2]
    _ (by decide +kernel)

end Hux.Registrar
