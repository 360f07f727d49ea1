import Mathlib.Data.Finset.Card
import Hux.Registrar

/-!
# Who owns what

A call that registers, deregisters or submits has pointers in its local variables,
and at times `mu_`. `Hand` names what a call can have; `Move` is one step of a
call together with what it has before and after; the books below are what every
move keeps.

* `Locks`: whoever has `mu_` knows the cache;
* `RegionBooks`: a region is in use as often as tables, requests, the application
  and calls have pointers to it;
* `RegistrationBooks`: a registration is in use as often as the cache, regions and
  calls have pointers to it;
* `Staged`: how far each registration has got between its first key and its last;
* `Pointed`: a region in use describes a range that its registration covers;
* `Owned`: all of these, which every move keeps.
-/

namespace Hux.Registrar
open Interleave (Tid Moves weigh weigh_eq_zero le_weigh weigh_add)
open Multiset (singleton_add count_eq_zero coe_count mem_add mem_singleton count_pos count_add
  count_zero count_singleton mem_singleton_self card)

/-- What a call has in hand. -/
inductive Hand
  /-- `mu_`, with what the cache is. -/
  | locking (t : Tid) (cache : List RegistrationId)
  /-- A registration that has got these keys so far. -/
  | building (r : RegistrationId) (ms : List Mint)
  /-- The only pointer to a registration made for the cache; and a pointer. -/
  | fresh (r : RegistrationId) (v : Registration)
  | registration (r : RegistrationId) (v : Registration)
  /-- A registration that still has to give these keys back. -/
  | dying (r : RegistrationId) (held : List (ProviderId × Nat))
  /-- A number from `next_region_` not used yet. -/
  | numbered (id : RegionId)
  | region (id : RegionId)
  deriving DecidableEq

/-- What the deleter has to do, if anything. -/
def dying (r : RegistrationId) : List (ProviderId × Nat) → Multiset Hand
  | [] => 0
  | h :: held => {.dying r (h :: held)}

def regionPtrs (ids : List RegionId) : Multiset Hand := ids.map Hand.region

@[simp] theorem regionPtrs_nil : regionPtrs [] = 0 := rfl

theorem regionPtrs_cons (id : RegionId) (ids : List RegionId) :
    regionPtrs (id :: ids) = regionPtrs ids + {.region id} := by
  rw [add_comm, singleton_add]
  rfl

theorem regionPtrs_append (ids more : List RegionId) :
    regionPtrs (ids ++ more) = regionPtrs ids + regionPtrs more := by
  simp [regionPtrs]

/-- The registration's keys are what transports granted for its range. -/
structure Grants (caps : ProviderId → ProviderCaps) (v : Registration) (ms : List Mint) : Prop where
  keys : v.keys = ms.map (·.key caps)
  first : ∃ m ∈ ms, v.localKey = m.localKey ∧ v.remoteKey = m.remoteKey
  asked : ∀ m ∈ ms, m.addr = v.base ∧ m.length = v.length ∧ m.device = v.device ∧
    m.access = v.access

/-- The region describes a range that its registration serves. -/
def Served (h : MemoryRegion) : Prop :=
  registrationCovers h.reg h.base h.length h.device h.access = true

/-! ## Moves -/

/-- One step of thread `t`: the state, and what the thread has in hand for it. -/
inductive Move (caps : ProviderId → ProviderCaps) (t : Tid) :
    Registrar → Multiset Hand → Registrar → Multiset Hand → Prop
  | touch {s : Registrar} {M : Multiset Hand} (retired : RegionId → Bool)
      (inflight finished : List RequestId) (reused created : Nat) :
      Move caps t s M { s with
        retired := retired, inflight := inflight, finished := finished
        registrationsReused := reused, registrationsCreated := created } M
  | lock {s : Registrar} : s.mu = none →
      Move caps t s 0 { s with mu := some t } {.locking t s.regCache}
  | unlock {s : Registrar} {c : List RegistrationId} : s.mu = some t →
      Move caps t s {.locking t c} { s with mu := none } 0
  | reserve {s : Registrar} :
      Move caps t s 0 { s with nextRegistration := s.nextRegistration + 1 }
        {.building s.nextRegistration []}
  | mint {s : Registrar} {m : Mint} {ms : List Mint} : (∀ x ∈ ms, x.provider ≠ m.provider) →
      Move caps t s {.building m.registration ms} { s with minted := s.minted ++ [m] }
        {.building m.registration (ms ++ [m])}
  | make {s : Registrar} {r : RegistrationId} {v : Registration} {ms : List Mint} {new : Hand} :
      Grants caps v ms → new = .fresh r v ∨ new = .registration r v →
      Move caps t s {.building r ms} (s.putRegistration r ⟨v, ms.map Mint.pair, 1⟩) {new}
  | push {s : Registrar} {r : RegistrationId} {v : Registration} : s.mu = some t →
      Move caps t s ({.fresh r v} + {.locking t s.regCache})
        { s.copyRegistration r with regCache := s.regCache ++ [r] }
        ({.registration r v} + {.locking t (s.regCache ++ [r])})
  | find {s : Registrar} {r : RegistrationId} : s.mu = none → r ∈ s.regCache →
      Move caps t s 0 (s.copyRegistration r) {.registration r (s.registrations r).reg}
  | evict {s : Registrar} {r : RegistrationId} : s.mu = some t → r ∈ s.regCache →
      Move caps t s {.locking t s.regCache} { s with regCache := s.regCache.erase r }
        ({.registration r (s.registrations r).reg} + {.locking t (s.regCache.erase r)})
  | drop {s : Registrar} {r : RegistrationId} {v : Registration} : s.registrationUses r ≠ 1 →
      Move caps t s {.registration r v} (s.countRegistration r (s.registrationUses r - 1)) 0
  | dropLast {s : Registrar} {r : RegistrationId} {v : Registration} : s.registrationUses r = 1 →
      Move caps t s {.registration r v} (s.countRegistration r (s.registrationUses r - 1))
        (dying r (s.registrations r).held)
  | handBack {s : Registrar} {r : RegistrationId} {h : ProviderId × Nat}
      {held : List (ProviderId × Nat)} :
      Move caps t s {.dying r (h :: held)} { s with deregistered := s.deregistered ++ [(r, h)] }
        (dying r held)
  | number {s : Registrar} :
      Move caps t s 0 { s with nextRegion := s.nextRegion + 1 } {.numbered s.nextRegion}
  | build {s : Registrar} {id : RegionId} {r : RegistrationId} {h : MemoryRegion} :
      h.reg = (s.registrations r).reg → Served h →
      Move caps t s ({.numbered id} + {.registration r h.reg})
        ((s.copyRegistration r).putRegion id ⟨h, r, 1⟩) ({.region id} + {.registration r h.reg})
  | list {s : Registrar} {id : RegionId} :
      Move caps t s {.region id} { s.copyRegion id with regions := s.regions ++ [id] } {.region id}
  | unlist {s : Registrar} {id : RegionId} : id ∈ s.regions →
      Move caps t s {.region id}
        { s.countRegion id (s.regionUses id - 1) with regions := s.regions.erase id } {.region id}
  | give {s : Registrar} {id : RegionId} :
      Move caps t s {.region id} { s with kept := Function.update s.kept id (s.kept id + 1) } 0
  | borrow {s : Registrar} {id : RegionId} : 0 < s.kept id ∨ id ∈ s.regions →
      Move caps t s 0 (s.copyRegion id) {.region id}
  | copy {s : Registrar} {id : RegionId} : 0 < s.kept id →
      Move caps t s 0
        { s.copyRegion id with kept := Function.update s.kept id (s.kept id + 1) } 0
  | takeBack {s : Registrar} {id : RegionId} : 0 < s.kept id →
      Move caps t s 0 { s with kept := Function.update s.kept id (s.kept id - 1) } {.region id}
  | accept {s : Registrar} {held : List RegionId} (inflight : List RequestId) :
      Move caps t s (regionPtrs held)
        { s with requests := s.requests ++ [⟨held, true⟩], inflight := inflight } 0
  | release {s : Registrar} {q : RequestId} {o : RequestObject} : s.requests[q]? = some o →
      o.alive = true →
      Move caps t s 0 { s with requests := s.requests.set q ⟨o.heldRegions, false⟩ }
        (regionPtrs o.heldRegions)
  | dropRegion {s : Registrar} {id : RegionId} : s.regionUses id ≠ 1 →
      Move caps t s {.region id} (s.countRegion id (s.regionUses id - 1)) 0
  | dropRegionLast {s : Registrar} {id : RegionId} : s.regionUses id = 1 →
      Move caps t s {.region id} (s.countRegion id (s.regionUses id - 1))
        {.registration (s.regionObjects id).registration
          (s.registrations (s.regionObjects id).registration).reg}

/-- What is in hand is as the state has it. -/
def Hand.Holds (s : Registrar) : Hand → Prop
  | .locking t c => s.mu = some t ∧ s.regCache = c
  | .fresh r v | .registration r v => (s.registrations r).reg = v
  | _ => True

/-- The steps of a thread whose hand is as the state has it. -/
def moves (caps : ProviderId → ProviderCaps) : Moves Registrar Hand := fun t s M s' M' =>
  (∀ h ∈ M, h.Holds s) → Move caps t s M s' M'

section
variable {f : Hand → Nat} {r : RegistrationId} {held : List (ProviderId × Nat)}
  {ids : List RegionId}

theorem weigh_dying (f : Hand → Nat) (r : RegistrationId) (held : List (ProviderId × Nat)) :
    weigh f (dying r held) = if held = [] then 0 else f (.dying r held) := by
  cases held <;> simp [dying]

variable {h : Hand}

theorem mem_dying : h ∈ dying r held ↔ held ≠ [] ∧ h = .dying r held := by
  cases held <;> simp [dying]

theorem mem_regionPtrs : h ∈ regionPtrs ids ↔ ∃ id ∈ ids, h = .region id := by
  simp [regionPtrs, eq_comm]

theorem count_dying (other : ∀ r held, h ≠ .dying r held) : (dying r held).count h = 0 :=
  count_eq_zero.mpr fun mem => other _ _ (mem_dying.mp mem).2

theorem count_regionPtrs (ids : List RegionId) (id : RegionId) :
    (regionPtrs ids).count (.region id) = ids.count id := by
  rw [regionPtrs, coe_count]
  exact List.count_map_of_injective ids _ (fun _ _ same => Hand.region.inj same) id

theorem count_regionPtrs_zero (other : ∀ id, h ≠ .region id) : (regionPtrs ids).count h = 0 := by
  refine count_eq_zero.mpr fun mem => ?_
  obtain ⟨id, -, same⟩ := mem_regionPtrs.mp mem
  exact other id same

theorem weigh_regionPtrs (none : ∀ id, f (.region id) = 0) : weigh f (regionPtrs ids) = 0 :=
  weigh_eq_zero fun h mem => by
    obtain ⟨id, -, rfl⟩ := mem_regionPtrs.mp mem
    exact none id

end

variable {caps : ProviderId → ProviderCaps} {t : Tid} {s s' : Registrar} {F M M' : Multiset Hand}

/-! ## The lock -/

@[simp] def locks : Hand → Nat
  | .locking _ _ => 1
  | _ => 0

structure Locks (s : Registrar) (M : Multiset Hand) : Prop where
  knows : ∀ t c, Hand.locking t c ∈ M → s.mu = some t ∧ s.regCache = c
  once : weigh locks M ≤ 1

namespace Locks

theorem none_of_weigh (zero : weigh locks M = 0) (t : Tid) (c : List RegistrationId) :
    Hand.locking t c ∉ M := by
  intro mem
  have := le_weigh (f := locks) mem
  simp [zero] at this

theorem weigh_of_none (none : ∀ t c, Hand.locking t c ∉ M) : weigh locks M = 0 := by
  refine weigh_eq_zero fun h mem => ?_
  cases h with
  | locking t c => exact absurd mem (none t c)
  | _ => rfl

theorem same (h : Locks s (F + M)) (mu : s'.mu = s.mu) (cache : s'.regCache = s.regCache)
    (fewer : ∀ t c, Hand.locking t c ∈ M' → Hand.locking t c ∈ M)
    (less : weigh locks M' ≤ weigh locks M) : Locks s' (F + M') := by
  constructor
  · intro t c mem
    rw [mu, cache]
    exact h.knows t c (mem_add.mpr ((mem_add.mp mem).imp_right (fewer t c)))
  · have := h.once
    simp only [weigh_add] at this ⊢
    omega

/-- Nobody else has the lock. -/
theorem alone {c : List RegistrationId} (h : Locks s (F + M)) (mine : .locking t c ∈ M) :
    weigh locks F = 0 := by
  have once := h.once
  have here := le_weigh (f := locks) mine
  simp only [weigh_add, locks] at once here
  omega

/-- The thread that has the lock changes what only it knows. -/
theorem replace {c c' : List RegistrationId} (h : Locks s (F + M)) (mine : .locking t c ∈ M)
    (mu : s'.mu = some t) (cache : s'.regCache = c') (others : ∀ t c, Hand.locking t c ∉ M') :
    Locks s' (F + (M' + {.locking t c'})) := by
  have zero := h.alone mine
  constructor
  · intro u d mem
    simp only [mem_add, mem_singleton, none_of_weigh zero, others, false_or] at mem
    cases mem
    exact ⟨mu, cache⟩
  · simp [zero, weigh_of_none others]

theorem keep (h : Locks s (F + M)) (move : Move caps t s M s' M') : Locks s' (F + M') := by
  cases move with
  | lock free =>
    have none : ∀ u c, Hand.locking u c ∉ F + 0 := fun u c mem => by
      simpa [free] using (h.knows u c mem).1
    have zero := weigh_of_none none
    simp only [add_zero] at none zero
    constructor
    · intro u c mem
      simp only [mem_add, mem_singleton, none, false_or] at mem
      cases mem
      exact ⟨rfl, rfl⟩
    · simp [zero]
  | unlock mine =>
    have zero := h.alone (mem_singleton_self _)
    exact ⟨fun u d mem => absurd (by simpa using mem) (none_of_weigh zero u d), by simp [zero]⟩
  | push mine =>
    exact h.replace (mem_add.mpr (.inr (mem_singleton_self _))) mine rfl (by simp)
  | evict mine _ => exact h.replace (mem_singleton_self _) mine rfl (by simp)
  | make _ new => obtain rfl | rfl := new <;> exact h.same rfl rfl (by simp) (by simp)
  | dropLast => exact h.same rfl rfl (by simp [mem_dying]) (by simp [weigh_dying])
  | handBack => exact h.same rfl rfl (by simp [mem_dying]) (by simp [weigh_dying])
  | release =>
    exact h.same rfl rfl (by simp [mem_regionPtrs]) (by rw [weigh_regionPtrs fun _ => rfl]; simp)
  | _ => exact h.same rfl rfl (by simp) (by simp)

end Locks

/-! ## Regions -/

/-- The regions a request keeps. -/
def owns (o : RequestObject) : Multiset RegionId := if o.alive then o.heldRegions else 0

def requested (s : Registrar) : Multiset RegionId := (s.requests.map owns).sum

theorem requested_set {q : RequestId} {o : RequestObject} (there : s.requests[q]? = some o)
    (o' : RequestObject) : ∃ rest, s.requested = rest + owns o ∧
      requested { s with requests := s.requests.set q o' } = rest + owns o' := by
  obtain ⟨bound, rfl⟩ := List.getElem?_eq_some_iff.mp there
  obtain ⟨rest, before, after⟩ :=
    Interleave.sum_set_split (s.requests.map owns) q (by simpa using bound) (owns o')
  refine ⟨rest, by simpa [requested] using before, ?_⟩
  rw [requested, List.map_set]
  exact after

/-- How many pointers to a region there are outside calls. -/
def shelved (s : Registrar) (id : RegionId) : Nat :=
  s.regions.count id + s.kept id + s.requested.count id

/-- A region is in use as often as there are pointers to it. -/
structure RegionBooks (s : Registrar) (M : Multiset Hand) : Prop where
  uses : ∀ id, s.regionUses id = s.shelved id + M.count (.region id)
  once : ∀ id, M.count (.numbered id) ≤ 1
  unused : ∀ id, .numbered id ∈ M → id < s.nextRegion ∧ s.regionUses id = 0
  unborn : ∀ id, s.nextRegion ≤ id → s.regionUses id = 0

@[simp] theorem regionUses_putRegion (s : Registrar) (id : RegionId) (o : RegionObject)
    (id' : RegionId) :
    (s.putRegion id o).regionUses id' = if id' = id then o.useCount else s.regionUses id' := by
  simp only [putRegion, regionUses, Function.update_apply]
  split <;> rfl

@[simp] theorem regionUses_countRegion (s : Registrar) (id : RegionId) (n : Nat) (id' : RegionId) :
    (s.countRegion id n).regionUses id' = if id' = id then n else s.regionUses id' := by
  simp [countRegion]

namespace RegionBooks

variable {id : RegionId} {r : RegistrationId} {v : Registration}

theorem pos_of_mem (h : RegionBooks s M) (mem : .region id ∈ M) : 0 < s.regionUses id := by
  have := count_pos.mpr mem
  have := h.uses id
  omega

theorem pos_of_hand (h : RegionBooks s (F + M)) (mem : .region id ∈ M) : 0 < s.regionUses id :=
  h.pos_of_mem (mem_add.mpr (.inr mem))

theorem pos_of_shelved (h : RegionBooks s M) (there : 0 < s.shelved id) : 0 < s.regionUses id := by
  have := h.uses id
  omega

theorem born (h : RegionBooks s M) (used : 0 < s.regionUses id) : id < s.nextRegion := by
  by_contra late
  exact absurd (h.unborn id (Nat.not_lt.mp late)) used.ne'

theorem pos_of_borrowed (h : RegionBooks s M) (there : 0 < s.kept id ∨ id ∈ s.regions) :
    0 < s.regionUses id := by
  apply h.pos_of_shelved
  have : 0 < s.kept id ∨ 0 < s.regions.count id := there.imp_right List.count_pos_iff.mpr
  unfold shelved
  omega

/-- Pointers are made, dropped or change hands, and no number is drawn. -/
theorem change (h : RegionBooks s (F + M))
    (uses : ∀ id, s'.regionUses id + (s.shelved id + M.count (.region id)) =
      s.regionUses id + (s'.shelved id + M'.count (.region id)))
    (next : s'.nextRegion = s.nextRegion)
    (numbers : ∀ id, M'.count (.numbered id) ≤ M.count (.numbered id))
    (unused : ∀ id, s.regionUses id = 0 → s.nextRegion ≤ id ∨ .numbered id ∈ F + M' →
      s'.regionUses id = 0) : RegionBooks s' (F + M') := by
  constructor
  · intro id
    have before := h.uses id
    have := uses id
    simp only [count_add] at before ⊢
    omega
  · intro id
    have before := h.once id
    have := numbers id
    simp only [count_add] at before ⊢
    omega
  · intro id mem
    have old : .numbered id ∈ F + M := by
      have := numbers id
      rw [← count_pos, count_add] at mem ⊢
      omega
    obtain ⟨bound, zero⟩ := h.unused id old
    exact ⟨next ▸ bound, unused id zero (.inr mem)⟩
  · intro id late
    rw [next] at late
    exact unused id (h.unborn id late) (.inl late)

/-- Pointers only change hands. -/
theorem shift (h : RegionBooks s (F + M)) (uses : s'.regionUses = s.regionUses)
    (total : ∀ id, s'.shelved id + M'.count (.region id) = s.shelved id + M.count (.region id))
    (next : s'.nextRegion = s.nextRegion)
    (numbers : ∀ id, M'.count (.numbered id) = M.count (.numbered id)) :
    RegionBooks s' (F + M') :=
  h.change (fun id => by rw [uses, total]) next (fun id => (numbers id).le)
    fun id zero _ => by rw [uses, zero]

/-- A pointer to a region in use is copied or dropped. -/
theorem recount (h : RegionBooks s (F + M)) {id : RegionId} (used : 0 < s.regionUses id) {n : Nat}
    (uses : ∀ id', s'.regionUses id' = if id' = id then n else s.regionUses id')
    {l : List RegionId} {k : RegionId → Nat} (regions : s'.regions = l) (kept : s'.kept = k)
    (requests : s'.requests = s.requests) (next : s'.nextRegion = s.nextRegion)
    (total : ∀ id', (if id' = id then n else s.regionUses id') +
      (s.regions.count id' + s.kept id' + M.count (.region id')) =
        s.regionUses id' + (l.count id' + k id' + M'.count (.region id')))
    (numbers : ∀ id, M'.count (.numbered id) = M.count (.numbered id)) :
    RegionBooks s' (F + M') := by
  refine h.change (fun id' => ?_) next (fun id' => (numbers id').le) fun id' zero _ => ?_
  · have := total id'
    simp only [uses, shelved, requested, regions, kept, requests]
    omega
  · rw [uses, if_neg, zero]
    rintro rfl
    exact absurd zero used.ne'

theorem number (h : RegionBooks s (F + 0)) :
    RegionBooks { s with nextRegion := s.nextRegion + 1 } (F + {.numbered s.nextRegion}) := by
  have none : F.count (.numbered s.nextRegion) = 0 := by
    refine count_eq_zero.mpr fun mem => ?_
    exact absurd (h.unused _ (mem_add.mpr (.inl mem))).1 (lt_irrefl _)
  constructor
  · intro id
    have := h.uses id
    simp only [count_add, count_zero, count_singleton, reduceCtorEq, ↓reduceIte] at this ⊢
    exact this
  · intro id
    have := h.once id
    simp only [count_add, count_singleton, Hand.numbered.injEq] at this ⊢
    split
    · subst_vars
      omega
    · exact this
  · intro id mem
    simp only [mem_add, mem_singleton, Hand.numbered.injEq] at mem
    obtain mem | rfl := mem
    · obtain ⟨bound, zero⟩ := h.unused id (mem_add.mpr (.inl mem))
      exact ⟨Nat.lt_succ_of_lt bound, zero⟩
    · exact ⟨Nat.lt_succ_self _, h.unborn _ le_rfl⟩
  · intro id late
    exact h.unborn id (Nat.le_of_succ_le late)

theorem build {h : MemoryRegion}
    (books : RegionBooks s (F + ({.numbered id} + {.registration r v}))) :
    RegionBooks ((s.copyRegistration r).putRegion id ⟨h, r, 1⟩)
      (F + ({.region id} + {.registration r v})) := by
  obtain ⟨bound, zero⟩ := books.unused id (by simp)
  have gone : .numbered id ∉ F := by
    have := books.once id
    simp only [count_add, Multiset.count_singleton_self] at this
    exact count_eq_zero.mp (by omega)
  refine books.change (fun id' => ?_) rfl (by simp) fun id' unused old => ?_
  · have same : ((s.copyRegistration r).putRegion id ⟨h, r, 1⟩).shelved id' = s.shelved id' := rfl
    by_cases e : id' = id
    · subst e
      simp [same, zero, add_comm]
    · simp [same, e]
      rfl
  · have ne : id' ≠ id := by
      rintro rfl
      rcases old with late | mem
      · exact absurd bound (Nat.not_lt.mpr late)
      · simp [gone] at mem
    exact (regionUses_putRegion _ id _ id').trans ((if_neg ne).trans unused)

theorem release {q : RequestId} {o : RequestObject} (there : s.requests[q]? = some o)
    (alive : o.alive = true) (h : RegionBooks s (F + 0)) :
    RegionBooks { s with requests := s.requests.set q ⟨o.heldRegions, false⟩ }
      (F + regionPtrs o.heldRegions) := by
  obtain ⟨rest, before, after⟩ := requested_set there ⟨o.heldRegions, false⟩
  simp only [owns, alive, ↓reduceIte, Bool.false_eq_true, add_zero] at before after
  refine h.shift rfl (fun id' => ?_) rfl (by simp [count_regionPtrs_zero])
  simp only [shelved, before, after, count_regionPtrs, count_add, coe_count, count_zero]
  omega

theorem keep (h : RegionBooks s (F + M)) (move : Move caps t s M s' M') :
    RegionBooks s' (F + M') := by
  cases move with
  | number => exact h.number
  | build => exact h.build
  | release there alive => exact h.release there alive
  | @list id =>
    refine h.recount (k := s.kept) (h.pos_of_hand (by simp)) (regionUses_countRegion s id _) rfl rfl
      rfl rfl (fun id' => ?_) fun _ => rfl
    obtain rfl | ne := eq_or_ne id' id
    · simp
      omega
    · simp [ne, ne.symm]
  | @unlist id listed =>
    have used := h.pos_of_hand (mem_singleton_self _)
    have := List.count_pos_iff.mpr listed
    refine h.recount (k := s.kept) used (regionUses_countRegion s id _) rfl rfl rfl rfl
      (fun id' => ?_) fun _ => rfl
    obtain rfl | ne := eq_or_ne id' id
    · simp
      omega
    · simp [ne, List.count_erase_of_ne ne]
  | @borrow id there =>
    refine h.recount (l := s.regions) (k := s.kept) (h.pos_of_borrowed there)
      (regionUses_countRegion s id _) rfl rfl rfl rfl (fun id' => ?_) (by simp)
    obtain rfl | ne := eq_or_ne id' id
    · simp
      omega
    · simp [ne]
  | @copy id there =>
    refine h.recount (l := s.regions) (h.pos_of_borrowed (.inl there))
      (regionUses_countRegion s id _) rfl rfl rfl rfl (fun id' => ?_) (by simp)
    obtain rfl | ne := eq_or_ne id' id
    · simp
      omega
    · simp [ne]
  | @dropRegion id _ | @dropRegionLast id _ =>
    have used := h.pos_of_hand (mem_singleton_self _)
    refine h.recount (l := s.regions) (k := s.kept) used (regionUses_countRegion s id _) rfl rfl rfl
      rfl (fun id' => ?_) (by simp)
    obtain rfl | ne := eq_or_ne id' id
    · simp
      omega
    · simp [ne]
  | @give id | @takeBack id there =>
    refine h.shift rfl (fun id' => ?_) rfl (by simp)
    obtain rfl | ne := eq_or_ne id' id
    · simp [shelved, requested]
      omega
    · simp [shelved, requested, ne]
  | accept =>
    refine h.shift rfl (fun id' => ?_) rfl (by simp [count_regionPtrs_zero])
    simp [shelved, requested, owns, count_regionPtrs, add_assoc]
  | make _ new =>
    obtain rfl | rfl := new <;> exact h.shift rfl (fun _ => by simp; rfl) rfl (by simp)
  | dropLast | handBack =>
    exact h.shift rfl (fun _ => by simp [count_dying]; rfl) rfl (by simp [count_dying])
  | _ => exact h.shift rfl (fun _ => by simp; rfl) rfl (by simp)

end RegionBooks

/-! ## Registrations -/

/-- The regions in use that share a registration. -/
def handles (s : Registrar) (r : RegistrationId) : Finset RegionId :=
  (Finset.range s.nextRegion).filter fun id =>
    0 < s.regionUses id ∧ (s.regionObjects id).registration = r

@[simp] def points (r : RegistrationId) : Hand → Nat
  | .fresh r' _ | .registration r' _ => if r' = r then 1 else 0
  | _ => 0

@[simp] def uncached (r : RegistrationId) : Hand → Nat
  | .fresh r' _ => if r' = r then 1 else 0
  | _ => 0

theorem uncached_le_points (r : RegistrationId) (h : Hand) : uncached r h ≤ points r h := by
  cases h <;> simp

/-- A registration is in use as often as there are pointers to it, and cached once. -/
structure RegistrationBooks (s : Registrar) (M : Multiset Hand) : Prop where
  uses : ∀ r, s.registrationUses r = s.regCache.count r + (s.handles r).card + weigh (points r) M
  cached : ∀ r, s.regCache.count r + weigh (uncached r) M ≤ 1

@[simp] theorem putRegistration_self (s : Registrar) (r : RegistrationId) (o : RegistrationObject) :
    (s.putRegistration r o).registrations r = o := by
  simp [putRegistration]

@[simp] theorem registrationUses_putRegistration (s : Registrar) (r : RegistrationId)
    (o : RegistrationObject) (r' : RegistrationId) :
    (s.putRegistration r o).registrationUses r' =
      if r' = r then o.useCount else s.registrationUses r' := by
  simp only [putRegistration, registrationUses, Function.update_apply]
  split <;> rfl

@[simp] theorem registrationUses_countRegistration (s : Registrar) (r : RegistrationId) (n : Nat)
    (r' : RegistrationId) :
    (s.countRegistration r n).registrationUses r' =
      if r' = r then n else s.registrationUses r' := by
  simp [countRegistration]

variable {r : RegistrationId} {id : RegionId}

theorem mem_handles : id ∈ s.handles r ↔
    id < s.nextRegion ∧ 0 < (s.regionObjects id).useCount ∧
      (s.regionObjects id).registration = r := by
  rw [handles, Finset.mem_filter, Finset.mem_range]
  rfl

theorem handles_countRegion {n : Nat} (pos : 0 < n ↔ 0 < s.regionUses id) (r : RegistrationId) :
    (s.countRegion id n).handles r = s.handles r := by
  ext id'
  by_cases e : id' = id
  · subst e
    simp [mem_handles, countRegion, putRegion, pos, regionUses]
  · simp [mem_handles, countRegion, putRegion, e]

theorem handles_number (unborn : s.regionUses s.nextRegion = 0) (r : RegistrationId) :
    handles { s with nextRegion := s.nextRegion + 1 } r = s.handles r := by
  ext id
  simp only [mem_handles, Nat.lt_succ_iff]
  constructor
  · rintro ⟨bound, used, same⟩
    refine ⟨lt_of_le_of_ne bound fun e => ?_, used, same⟩
    subst e
    exact absurd unborn used.ne'
  · rintro ⟨bound, rest⟩
    exact ⟨bound.le, rest⟩

theorem handles_putRegion (bound : id < s.nextRegion) (unused : s.regionUses id = 0)
    {o : RegionObject} (one : o.useCount = 1) (r : RegistrationId) :
    (s.putRegion id o).handles r =
      if o.registration = r then insert id (s.handles r) else s.handles r := by
  ext id'
  by_cases e : id' = id
  · subst e
    have out : id' ∉ s.handles r := by
      simp [mem_handles, show (s.regionObjects id').useCount = 0 from unused]
    split <;> rename_i same
    · simp [mem_handles, putRegion, one, same, bound]
    · simp [mem_handles, putRegion, same, out]
  · split <;> simp [mem_handles, putRegion, e]

theorem handles_dropLast (s : Registrar) (id : RegionId) (r : RegistrationId) :
    (s.countRegion id 0).handles r = (s.handles r).erase id := by
  ext id'
  by_cases e : id' = id
  · subst e
    simp [mem_handles, countRegion, putRegion]
  · simp [mem_handles, countRegion, putRegion, e]

namespace RegistrationBooks

theorem pos_of_mem (h : RegistrationBooks s M) {r : RegistrationId} {v : Registration}
    (mem : .fresh r v ∈ M ∨ .registration r v ∈ M) : 0 < s.registrationUses r := by
  have weight : 1 ≤ weigh (points r) M := by
    rcases mem with mem | mem <;> simpa using le_weigh (f := points r) mem
  have := h.uses r
  omega

theorem pos_of_hand (h : RegistrationBooks s (F + M)) {r : RegistrationId} {v : Registration}
    (mem : .registration r v ∈ M) : 0 < s.registrationUses r :=
  h.pos_of_mem (.inr (mem_add.mpr (.inr mem)))

theorem pos_of_cached (h : RegistrationBooks s M) {r : RegistrationId} (mem : r ∈ s.regCache) :
    0 < s.registrationUses r := by
  have := List.count_pos_iff.mpr mem
  have := h.uses r
  omega

/-- Pointers to registrations are made, copied or dropped. -/
theorem recount (h : RegistrationBooks s (F + M)) {u : RegistrationId → Nat}
    {c : List RegistrationId} {g : RegistrationId → Finset RegionId}
    (uses : ∀ r, s'.registrationUses r = u r) (cache : s'.regCache = c)
    (handles : ∀ r, s'.handles r = g r)
    (total : ∀ r, u r + (s.regCache.count r + (s.handles r).card + weigh (points r) M) =
      s.registrationUses r + (c.count r + (g r).card + weigh (points r) M'))
    (cached : ∀ r, c.count r + weigh (uncached r) M' ≤ s.regCache.count r + weigh (uncached r) M ∨
      s.registrationUses r = 0 ∧ c.count r + weigh (uncached r) M' ≤ 1) :
    RegistrationBooks s' (F + M') := by
  constructor
  · intro r
    have before := h.uses r
    have := total r
    simp only [weigh_add, uses, cache, handles] at before ⊢
    omega
  · intro r
    have before := h.cached r
    have all := h.uses r
    have fewer := Interleave.weigh_mono (uncached_le_points r) F
    have := cached r
    simp only [weigh_add, cache] at before all ⊢
    omega

/-- Only pointers to regions are copied or dropped, and none of those the last. -/
theorem same (h : RegistrationBooks s (F + M)) (uses : s'.registrationUses = s.registrationUses)
    (cache : s'.regCache = s.regCache) (handles : ∀ r, s'.handles r = s.handles r)
    (ptrs : ∀ r, weigh (points r) M' = weigh (points r) M)
    (fresh : ∀ r, weigh (uncached r) M' = weigh (uncached r) M) : RegistrationBooks s' (F + M') :=
  h.recount (fun r => congrFun uses r) cache handles (fun r => by rw [ptrs])
    fun r => .inl (by rw [fresh])

/-- A pointer to one registration is copied or dropped. -/
theorem count (h : RegistrationBooks s (F + M)) {n : Nat}
    (ptrs : ∀ r', (if r' = r then n else s.registrationUses r') + weigh (points r') M =
      s.registrationUses r' + weigh (points r') M')
    (fresh : ∀ r, weigh (uncached r) M' = weigh (uncached r) M) :
    RegistrationBooks (s.countRegistration r n) (F + M') := by
  refine h.recount (c := s.regCache) (g := s.handles) (registrationUses_countRegistration s r n) rfl
    (fun _ => rfl) (fun r' => ?_) fun r' => .inl (by rw [fresh])
  have := ptrs r'
  omega

theorem make {o : RegistrationObject} {ms : List Mint} {new : Hand}
    (is : new = .fresh r o.reg ∨ new = .registration r o.reg) (one : o.useCount = 1)
    (unmade : s.registrationUses r = 0) (h : RegistrationBooks s (F + {.building r ms})) :
    RegistrationBooks (s.putRegistration r o) (F + {new}) := by
  have none := h.uses r
  refine h.recount (c := s.regCache) (g := s.handles) (registrationUses_putRegistration s r o) rfl
    (fun _ => rfl) (fun r' => ?_) fun r' => ?_
  · obtain rfl | ne := eq_or_ne r' r
    · rcases is with rfl | rfl <;> simp [one, unmade] <;> omega
    · rcases is with rfl | rfl <;> simp [ne, ne.symm]
  · obtain rfl | ne := eq_or_ne r' r
    · refine .inr ⟨unmade, ?_⟩
      rcases is with rfl | rfl <;> simp <;> omega
    · rcases is with rfl | rfl <;> simp [ne.symm]

theorem evict {c : List RegistrationId} (cached : r ∈ s.regCache)
    (h : RegistrationBooks s (F + {.locking t c})) {v : Registration} {c' : List RegistrationId} :
    RegistrationBooks { s with regCache := s.regCache.erase r }
      (F + ({.registration r v} + {.locking t c'})) := by
  have := List.count_pos_iff.mpr cached
  refine h.recount (u := s.registrationUses) (g := s.handles) (fun _ => rfl) rfl (fun _ => rfl)
    (fun r' => ?_) fun r' => .inl ?_
  · obtain rfl | ne := eq_or_ne r' r
    · simp
      omega
    · simp [ne.symm, List.count_erase_of_ne ne]
  · simp [List.count_erase]

/-- The new region has a pointer of its own. -/
theorem build {h : MemoryRegion} {v : Registration} (unused : s.regionUses id = 0)
    (bound : id < s.nextRegion)
    (books : RegistrationBooks s (F + ({.numbered id} + {.registration r v}))) :
    RegistrationBooks ((s.copyRegistration r).putRegion id ⟨h, r, 1⟩)
      (F + ({.region id} + {.registration r v})) := by
  have out : id ∉ s.handles r := by
    rw [mem_handles]
    rintro ⟨_, used, _⟩
    exact absurd unused used.ne'
  refine books.recount (c := s.regCache)
    (g := fun r' => if r = r' then insert id (s.handles r') else s.handles r')
    (registrationUses_countRegistration s r _) rfl
    (handles_putRegion (s := s.copyRegistration r) (o := ⟨h, r, 1⟩) bound unused rfl)
    (fun r' => ?_) fun r' => .inl (by simp)
  obtain rfl | ne := eq_or_ne r' r
  · simp [Finset.card_insert_of_notMem out]
    omega
  · simp [ne, ne.symm]

/-- The pointer of a region that goes is the call's. -/
theorem dropRegionLast {v : Registration} (last : s.regionUses id = 1) (bound : id < s.nextRegion)
    (h : RegistrationBooks s (F + {.region id})) :
    RegistrationBooks (s.countRegion id 0)
      (F + {.registration (s.regionObjects id).registration v}) := by
  have there : id ∈ s.handles (s.regionObjects id).registration :=
    mem_handles.mpr ⟨bound, by rw [← regionUses, last]; decide, rfl⟩
  have one := Finset.card_pos.mpr ⟨id, there⟩
  refine h.recount (u := s.registrationUses) (c := s.regCache) (fun _ => rfl) rfl
    (handles_dropLast s id) (fun r => ?_) fun r => .inl (by simp)
  obtain rfl | ne := eq_or_ne r (s.regionObjects id).registration
  · simp [Finset.card_erase_of_mem there]
    omega
  · have out : id ∉ s.handles r := fun mem => ne (mem_handles.mp mem).2.2.symm
    simp [ne.symm, Finset.erase_eq_of_notMem out]

theorem keep (h : RegistrationBooks s (F + M)) (regions : RegionBooks s (F + M))
    (unmade : ∀ r ms, .building r ms ∈ M → s.registrationUses r = 0)
    (move : Move caps t s M s' M') : RegistrationBooks s' (F + M') := by
  cases move with
  | make _ is => exact h.make is rfl (unmade _ _ (mem_singleton_self _))
  | evict _ cached => exact h.evict cached
  | @build id =>
    obtain ⟨bound, unused⟩ := regions.unused id (by simp)
    exact h.build unused bound
  | dropRegionLast last =>
    rw [last]
    exact h.dropRegionLast last (regions.born (by omega))
  | @push r v locked =>
    refine h.recount (g := s.handles) (registrationUses_countRegistration s r _) rfl (fun _ => rfl)
      (fun r' => ?_) fun r' => .inl ?_
    · obtain rfl | ne := eq_or_ne r' r
      · simp
        omega
      · simp [ne, ne.symm]
    · by_cases e : r = r' <;> simp [e]
  | @find r free cached =>
    refine h.count (fun r' => ?_) (by simp)
    by_cases e : r' = r <;> simp [e, Ne.symm]
  | @drop r v shared =>
    have used := h.pos_of_hand (mem_singleton_self _)
    refine h.count (fun r' => ?_) (by simp)
    obtain rfl | ne := eq_or_ne r' r
    · simp
      omega
    · simp [ne, ne.symm]
  | @dropLast r v last =>
    refine h.count (fun r' => ?_) (by simp [weigh_dying])
    obtain rfl | ne := eq_or_ne r' r
    · simp [weigh_dying, last]
    · simp [weigh_dying, ne, ne.symm]
  | handBack =>
    exact h.same rfl rfl (fun _ => rfl) (by simp [weigh_dying])
      (by simp [weigh_dying])
  | number =>
    exact h.same rfl rfl (handles_number (regions.unborn _ le_rfl)) (by simp)
      (by simp)
  | @list id =>
    have used := regions.pos_of_hand (mem_singleton_self _)
    exact h.same rfl rfl (handles_countRegion (by simp [used])) (fun _ => rfl) fun _ => rfl
  | @unlist id listed =>
    have := List.count_pos_iff.mpr listed
    have before := regions.uses id
    simp only [shelved, count_add, Multiset.count_singleton_self] at before
    exact h.same rfl rfl (handles_countRegion (by omega)) (fun _ => rfl) fun _ => rfl
  | @borrow id there =>
    have used := regions.pos_of_borrowed there
    exact h.same rfl rfl (handles_countRegion (by simp [used])) (by simp)
      (by simp)
  | @copy id there =>
    have used := regions.pos_of_borrowed (.inl there)
    exact h.same rfl rfl (handles_countRegion (by simp [used])) (fun _ => rfl) fun _ => rfl
  | @dropRegion id shared =>
    have used := regions.pos_of_hand (mem_singleton_self _)
    exact h.same rfl rfl (handles_countRegion (by omega)) (by simp) (by simp)
  | accept =>
    exact h.same rfl rfl (fun _ => rfl) (fun _ => (weigh_regionPtrs fun _ => rfl).symm)
      fun _ => (weigh_regionPtrs fun _ => rfl).symm
  | release =>
    exact h.same rfl rfl (fun _ => rfl) (fun _ => weigh_regionPtrs fun _ => rfl)
      fun _ => weigh_regionPtrs fun _ => rfl
  | _ => exact h.same rfl rfl (fun _ => rfl) (by simp) (by simp)

end RegistrationBooks

/-! ## From the first key to the last -/

def mintedOf (s : Registrar) (r : RegistrationId) : List Mint :=
  s.minted.filter (·.registration == r)

def deregisteredOf (s : Registrar) (r : RegistrationId) : List (ProviderId × Nat) :=
  (s.deregistered.filter (·.1 == r)).map (·.2)

@[simp] def Hand.makes (r : RegistrationId) : Hand → Bool
  | .building r' _ | .dying r' _ => r' == r
  | _ => false

/-- Whoever is making a registration or unmaking it. -/
def making (r : RegistrationId) (M : Multiset Hand) : Multiset Hand := M.filter (·.makes r)

section
variable (r : RegistrationId)

@[simp] theorem making_zero : making r 0 = 0 := rfl

@[simp] theorem making_add (F M : Multiset Hand) : making r (F + M) = making r F + making r M :=
  Multiset.filter_add _ F M

@[simp] theorem making_singleton (h : Hand) :
    making r {h} = if h.makes r = true then {h} else 0 := Multiset.filter_singleton _

@[simp] theorem making_cons (h : Hand) (M : Multiset Hand) :
    making r (h ::ₘ M) = making r {h} + making r M := making_add r {h} M

theorem making_dying (r' : RegistrationId) (held : List (ProviderId × Nat)) :
    making r (dying r' held) = if r' = r then dying r' held else 0 := by
  cases held <;> simp [dying]

@[simp] theorem making_regionPtrs (ids : List RegionId) : making r (regionPtrs ids) = 0 := by
  refine Multiset.filter_eq_nil.mpr fun h mem => ?_
  obtain ⟨id, -, rfl⟩ := mem_regionPtrs.mp mem
  simp

end

/-- How far a registration has got, given who is making or unmaking it. -/
inductive Stage (caps : ProviderId → ProviderCaps) (s : Registrar) (r : RegistrationId) :
    Multiset Hand → Prop
  /-- Not made yet, or all its keys have been given back. -/
  | idle : s.registrationUses r = 0 → (s.mintedOf r).map Mint.pair = s.deregisteredOf r →
      Stage caps s r 0
  | building {ms : List Mint} : s.registrationUses r = 0 → s.mintedOf r = ms →
      s.deregisteredOf r = [] → Stage caps s r {.building r ms}
  | live : 0 < s.registrationUses r → Grants caps (s.registrations r).reg (s.mintedOf r) →
      (s.registrations r).held = (s.mintedOf r).map Mint.pair → s.deregisteredOf r = [] →
      Stage caps s r 0
  | dying {held : List (ProviderId × Nat)} : s.registrationUses r = 0 →
      (s.mintedOf r).map Mint.pair = s.deregisteredOf r ++ held → Stage caps s r {.dying r held}

structure Staged (caps : ProviderId → ProviderCaps) (s : Registrar) (M : Multiset Hand) : Prop where
  stage : ∀ r, Stage caps s r (making r M)
  unborn : ∀ r, s.nextRegistration ≤ r →
    s.registrationUses r = 0 ∧ s.mintedOf r = [] ∧ making r M = 0
  once : (s.minted.map fun m => (m.registration, m.provider)).Nodup

theorem eq_of_add_singleton {F : Multiset Hand} {x y : Hand} (h : F + {x} = {y}) :
    F = 0 ∧ x = y := by
  have none : F = 0 := by
    have := congrArg card h
    simpa using this
  subst none
  exact ⟨rfl, by simpa using h⟩

namespace Stage
variable {r : RegistrationId} {H : Multiset Hand}

theorem same (h : Stage caps s r H) (uses : 0 < s'.registrationUses r ↔ 0 < s.registrationUses r)
    (reg : (s'.registrations r).reg = (s.registrations r).reg)
    (held : (s'.registrations r).held = (s.registrations r).held)
    (minted : s'.mintedOf r = s.mintedOf r) (gone : s'.deregisteredOf r = s.deregisteredOf r) :
    Stage caps s' r H := by
  cases h with
  | idle unused given => exact .idle (by omega) (by rw [minted, gone, given])
  | building unused got none => exact .building (by omega) (minted.trans got) (gone.trans none)
  | live used grants keys none =>
    exact .live (uses.mpr used) (by rw [reg, minted]; exact grants) (by rw [held, minted, keys])
      (gone.trans none)
  | dying unused given => exact .dying (by omega) (by rw [minted, gone, given])

theorem of_building {ms : List Mint} (h : Stage caps s r (H + {.building r ms})) :
    H = 0 ∧ s.registrationUses r = 0 ∧ s.mintedOf r = ms ∧ s.deregisteredOf r = [] := by
  generalize e : H + {Hand.building r ms} = H' at h
  cases h with
  | idle | live => simpa using congrArg card e
  | building unused got none =>
    obtain ⟨rfl, same⟩ := eq_of_add_singleton e
    cases same
    exact ⟨rfl, unused, got, none⟩
  | dying => cases (eq_of_add_singleton e).2

theorem of_dying {held : List (ProviderId × Nat)} (h : Stage caps s r (H + {.dying r held})) :
    H = 0 ∧ s.registrationUses r = 0 ∧
      (s.mintedOf r).map Mint.pair = s.deregisteredOf r ++ held := by
  generalize e : H + {Hand.dying r held} = H' at h
  cases h with
  | idle | live => simpa using congrArg card e
  | building => cases (eq_of_add_singleton e).2
  | dying unused given =>
    obtain ⟨rfl, same⟩ := eq_of_add_singleton e
    cases same
    exact ⟨rfl, unused, given⟩

theorem of_used (h : Stage caps s r H) (used : 0 < s.registrationUses r) :
    H = 0 ∧ Grants caps (s.registrations r).reg (s.mintedOf r) ∧
      (s.registrations r).held = (s.mintedOf r).map Mint.pair ∧ s.deregisteredOf r = [] := by
  cases h with
  | live _ grants keys none => exact ⟨rfl, grants, keys, none⟩
  | idle unused | building unused | dying unused => exact absurd unused used.ne'

/-- What has been given back is a beginning of what was got. -/
theorem given (h : Stage caps s r H) : s.deregisteredOf r <+: (s.mintedOf r).map Mint.pair := by
  cases h with
  | idle _ given => rw [given]
  | building _ _ none | live _ _ _ none => simp [none]
  | dying _ given => exact ⟨_, given.symm⟩

end Stage

namespace Staged

/-- The same registrations are in use, and no key is got or given back. -/
theorem same (h : Staged caps s (F + M))
    (uses : ∀ r, 0 < s'.registrationUses r ↔ 0 < s.registrationUses r)
    (reg : ∀ r, (s'.registrations r).reg = (s.registrations r).reg)
    (held : ∀ r, (s'.registrations r).held = (s.registrations r).held)
    (minted : s'.minted = s.minted) (gone : s'.deregistered = s.deregistered)
    (next : s'.nextRegistration = s.nextRegistration)
    (hands : ∀ r, making r M' = making r M) : Staged caps s' (F + M') := by
  have mints (r : RegistrationId) : s'.mintedOf r = s.mintedOf r := by
    rw [mintedOf, minted, mintedOf]
  constructor
  · intro r
    rw [making_add, hands, ← making_add]
    exact (h.stage r).same (uses r) (reg r) (held r) (mints r)
      (by rw [deregisteredOf, gone, deregisteredOf])
  · intro r late
    obtain ⟨unused, none, nobody⟩ := h.unborn r (next ▸ late)
    rw [making_add, hands, ← making_add]
    exact ⟨by have := uses r; omega, (mints r).trans none, nobody⟩
  · rw [minted]
    exact h.once

/-- A pointer is copied, or one that is not the last goes. -/
theorem recount (h : Staged caps s (F + M)) (r : RegistrationId) {n : Nat}
    (pos : 0 < n ↔ 0 < s.registrationUses r)
    (objects : s'.registrations = (s.countRegistration r n).registrations)
    (minted : s'.minted = s.minted) (gone : s'.deregistered = s.deregistered)
    (next : s'.nextRegistration = s.nextRegistration)
    (hands : ∀ r, making r M' = making r M) : Staged caps s' (F + M') := by
  refine h.same (fun r' => ?_) (fun r' => ?_) (fun r' => ?_) minted gone next hands
  · have := registrationUses_countRegistration s r n r'
    rw [registrationUses, objects, ← registrationUses, this]
    split
    · subst_vars
      exact pos
    · rfl
  all_goals
    rw [objects]
    by_cases e : r' = r
    · subst e
      simp [countRegistration, putRegistration]
    · simp [countRegistration, putRegistration, e]

/-- One registration goes on to its next stage. -/
theorem advance (h : Staged caps s (F + M)) (r : RegistrationId)
    (others : ∀ r', r' ≠ r → s'.registrations r' = s.registrations r' ∧
      s'.mintedOf r' = s.mintedOf r' ∧ s'.deregisteredOf r' = s.deregisteredOf r' ∧
      making r' M' = making r' M)
    (this : Stage caps s' r (making r (F + M'))) (born : r < s'.nextRegistration)
    (next : s.nextRegistration ≤ s'.nextRegistration)
    (once : (s'.minted.map fun m => (m.registration, m.provider)).Nodup) :
    Staged caps s' (F + M') := by
  constructor
  · intro r'
    by_cases e : r' = r
    · subst e
      exact this
    · obtain ⟨object, minted, gone, hands⟩ := others r' e
      rw [making_add, hands, ← making_add]
      exact (h.stage r').same (by rw [registrationUses, object, registrationUses]) (by rw [object])
        (by rw [object]) minted gone
  · intro r' late
    have e : r' ≠ r := by
      rintro rfl
      exact absurd born (Nat.not_lt.mpr late)
    obtain ⟨object, minted, -, hands⟩ := others r' e
    rw [making_add, hands, ← making_add, registrationUses, object, minted]
    exact h.unborn r' (next.trans late)
  · exact once

theorem born (h : Staged caps s M) {r : RegistrationId}
    (there : 0 < s.registrationUses r ∨ making r M ≠ 0) : r < s.nextRegistration := by
  by_contra late
  obtain ⟨unused, -, nobody⟩ := h.unborn r (Nat.not_lt.mp late)
  rcases there with used | somebody
  · exact absurd unused used.ne'
  · exact somebody nobody

theorem of_building {r : RegistrationId} {ms : List Mint}
    (h : Staged caps s (F + {.building r ms})) :
    r < s.nextRegistration ∧ making r F = 0 ∧ s.registrationUses r = 0 ∧ s.mintedOf r = ms ∧
      s.deregisteredOf r = [] := by
  have stage := h.stage r
  simp only [making_add, making_singleton, Hand.makes, beq_self_eq_true, ↓reduceIte] at stage
  obtain ⟨nobody, rest⟩ := stage.of_building
  exact ⟨h.born (.inr (by simp [nobody])), nobody, rest⟩

theorem keep (h : Staged caps s (F + M)) (books : RegistrationBooks s (F + M))
    (move : Move caps t s M s' M') : Staged caps s' (F + M') := by
  cases move with
  | reserve =>
    obtain ⟨unused, none, nobody⟩ := h.unborn s.nextRegistration le_rfl
    have given := (h.stage s.nextRegistration).given
    rw [none, List.map_nil, List.prefix_nil] at given
    refine h.advance s.nextRegistration (fun r' ne => ⟨rfl, rfl, rfl, ?_⟩) ?_ (Nat.lt_succ_self _)
      (Nat.le_succ _) h.once
    · simp [ne.symm]
    · rw [add_zero] at nobody
      rw [making_add, nobody, zero_add, making_singleton]
      simp only [Hand.makes, beq_self_eq_true, ↓reduceIte]
      exact .building unused none given
  | @mint m ms new =>
    obtain ⟨old, nobody, unused, got, none⟩ := h.of_building
    refine h.advance m.registration (fun r' ne => ⟨rfl, ?_, rfl, ?_⟩) ?_ old le_rfl ?_
    · simp [mintedOf, ne.symm]
    · simp [ne.symm]
    · rw [making_add, nobody, zero_add, making_singleton]
      simp only [Hand.makes, beq_self_eq_true, ↓reduceIte]
      refine .building unused ?_ none
      rw [← got]
      simp [mintedOf]
    · rw [List.map_append, List.nodup_append]
      refine ⟨h.once, by simp, ?_⟩
      rintro x hx y hy rfl
      obtain ⟨m', there, rfl⟩ := List.mem_map.mp hx
      obtain ⟨same, provider⟩ := Prod.mk.inj (List.mem_singleton.mp hy)
      refine new m' ?_ provider
      rw [← got, mintedOf, List.mem_filter]
      exact ⟨there, beq_iff_eq.mpr same⟩
  | @make r v ms new grants is =>
    obtain ⟨old, nobody, unused, got, none⟩ := h.of_building
    have idle (r' : RegistrationId) : making r' {new} = 0 := by
      rcases is with rfl | rfl <;> simp
    refine h.advance r (fun r' ne => ⟨Function.update_of_ne ne _ _, rfl, rfl, ?_⟩) ?_ old
      le_rfl h.once
    · rw [idle]
      simp [ne.symm]
    · rw [making_add, nobody, idle]
      subst got
      refine .live (by simp) ?_ ?_ none
      · rw [putRegistration_self]
        exact grants
      · rw [putRegistration_self]
        rfl
  | @push r v locked =>
    have used := books.pos_of_mem (r := r) (v := v) (.inl (by simp))
    exact h.recount r (by simp [used]) rfl rfl rfl rfl (by simp)
  | @find r free cached =>
    have used := books.pos_of_cached cached
    exact h.recount r (by simp [used]) rfl rfl rfl rfl (by simp)
  | @drop r v shared =>
    have used := books.pos_of_hand (mem_singleton_self _)
    exact h.recount r (by omega) rfl rfl rfl rfl (by simp)
  | @dropLast r v last => 
    have used : 0 < s.registrationUses r := by omega
    obtain ⟨nobody, -, keys, none⟩ := (h.stage r).of_used used
    refine h.advance r (fun r' ne => ⟨Function.update_of_ne ne _ _, rfl, rfl, ?_⟩) ?_
      (h.born (.inl used)) le_rfl h.once
    · rw [making_dying, if_neg ne.symm]
      simp
    · have alone : making r F = 0 := by simpa using nobody
      rw [making_add, alone, zero_add, making_dying, if_pos rfl]
      have unused : (s.countRegistration r (s.registrationUses r - 1)).registrationUses r = 0 := by
        simp [last]
      cases h : (s.registrations r).held with
      | nil => exact .idle unused ((keys.symm.trans h).trans none.symm)
      | cons k rest => exact .dying unused (by rw [← h, keys]; exact (congrArg (· ++ _) none).symm)
  | @handBack r k held =>
    have stage := h.stage r
    simp only [making_add, making_singleton, Hand.makes, beq_self_eq_true, ↓reduceIte] at stage
    obtain ⟨nobody, unused, given⟩ := stage.of_dying
    have old : r < s.nextRegistration := h.born (.inr (by simp [nobody]))
    refine h.advance r (fun r' ne => ⟨rfl, rfl, ?_, ?_⟩) ?_ old le_rfl h.once
    · simp [deregisteredOf, ne.symm]
    · rw [making_dying, if_neg ne.symm]
      simp [ne.symm]
    · rw [making_add, nobody, zero_add, making_dying, if_pos rfl]
      have more : deregisteredOf { s with deregistered := s.deregistered ++ [(r, k)] } r =
          s.deregisteredOf r ++ [k] := by simp [deregisteredOf]
      have rest : (s.mintedOf r).map Mint.pair = (s.deregisteredOf r ++ [k]) ++ held := by
        rw [given, List.append_assoc]
        rfl
      cases held with
      | nil => exact .idle unused (by rw [more]; exact rest.trans (List.append_nil _))
      | cons k' rest' => exact .dying unused (by rw [more]; exact rest)
  | @build id r v same _ =>
    have used := books.pos_of_hand (r := r) (v := v.reg) (by simp)
    exact h.recount r (by simp [used]) rfl rfl rfl rfl (by simp)
  | _ =>
    exact h.same (fun _ => Iff.rfl) (fun _ => rfl) (fun _ => rfl) rfl rfl rfl (by simp)

end Staged

/-! ## What pointers point to -/

theorem countRegistration_reg (s : Registrar) (r : RegistrationId) (n : Nat) (r' : RegistrationId) :
    ((s.countRegistration r n).registrations r').reg = (s.registrations r').reg := by
  by_cases e : r' = r
  · subst e
    simp [countRegistration, putRegistration]
  · simp [countRegistration, putRegistration, e]

/-- A registration in use is not changed. -/
theorem Move.reg_kept (move : Move caps t s M s' M')
    (unmade : ∀ r ms, .building r ms ∈ M → s.registrationUses r = 0)
    (used : 0 < s.registrationUses r) : (s'.registrations r).reg = (s.registrations r).reg := by
  cases move with
  | @make r' v ms new _ _ =>
    have zero := unmade r' ms (mem_singleton_self _)
    have ne : r ≠ r' := by
      rintro rfl
      exact absurd zero used.ne'
    simp [putRegistration, ne]
  | push | find | drop | dropLast | build => exact countRegistration_reg s _ _ r
  | _ => rfl

theorem countRegion_object (s : Registrar) (id : RegionId) (n : Nat) (id' : RegionId) :
    ((s.countRegion id n).regionObjects id').region = (s.regionObjects id').region ∧
      ((s.countRegion id n).regionObjects id').registration =
        (s.regionObjects id').registration := by
  by_cases e : id' = id
  · subst e
    simp [countRegion, putRegion]
  · simp [countRegion, putRegion, e]

structure Pointed (s : Registrar) (M : Multiset Hand) : Prop where
  /-- Whoever has a pointer knows what it points to. -/
  value : ∀ r v, .fresh r v ∈ M ∨ .registration r v ∈ M → (s.registrations r).reg = v
  /-- A region in use has the registration it was made over, which serves it. -/
  region : ∀ id, 0 < s.regionUses id →
    (s.regionObjects id).region.reg = (s.registrations (s.regionObjects id).registration).reg ∧
      Served (s.regionObjects id).region

/-- A pointer in hand after a step was there before, or points to what the step saw. -/
theorem Move.pointer (move : Move caps t s M s' M') {v : Registration}
    (mem : .fresh r v ∈ M' ∨ .registration r v ∈ M') :
    (.fresh r v ∈ M ∨ .registration r v ∈ M) ∨ (s'.registrations r).reg = v := by
  cases move with
  | touch => exact .inl mem
  | @make r' v' ms new _ is =>
    right
    rcases is with rfl | rfl <;> simp only [mem_singleton, reduceCtorEq, Hand.fresh.injEq,
      Hand.registration.injEq, false_or, or_false] at mem <;> obtain ⟨rfl, rfl⟩ := mem <;> simp
  | push => simp_all
  | build => simp_all
  | @find r' free cached =>
    simp only [mem_singleton, reduceCtorEq, Hand.registration.injEq, false_or] at mem
    obtain ⟨rfl, rfl⟩ := mem
    exact .inr (countRegistration_reg s r _ r)
  | @evict r' locked cached =>
    simp only [mem_add, mem_singleton, reduceCtorEq, Hand.registration.injEq,
      false_or, or_false] at mem
    obtain ⟨rfl, rfl⟩ := mem
    exact .inr rfl
  | @dropRegionLast id last =>
    simp only [mem_singleton, reduceCtorEq, Hand.registration.injEq, false_or] at mem
    obtain ⟨rfl, rfl⟩ := mem
    exact .inr rfl
  | dropLast | handBack => simp [mem_dying] at mem
  | release => simp [mem_regionPtrs] at mem
  | _ => simp at mem

/-- A region in use after a step was in use before, or the step made it. -/
theorem Move.region_kept (move : Move caps t s M s' M') (books : RegionBooks s (F + M))
    (used : 0 < s'.regionUses id) :
    0 < s.regionUses id ∧ (s'.regionObjects id).region = (s.regionObjects id).region ∧
        (s'.regionObjects id).registration = (s.regionObjects id).registration ∨
      (s'.regionObjects id).region.reg = (s'.registrations (s'.regionObjects id).registration).reg ∧
        Served (s'.regionObjects id).region := by
  have recounted {id' : RegionId} {n : Nat} (pos : 0 < s.regionUses id')
      (used : 0 < (s.countRegion id' n).regionUses id) : 0 < s.regionUses id := by
    rw [regionUses_countRegion] at used
    split at used
    · subst_vars
      exact pos
    · exact used
  cases move with
  | @build id' r h same serves =>
    by_cases e : id = id'
    · subst e
      right
      simp only [putRegion, Function.update_self]
      exact ⟨same.trans (countRegistration_reg s r _ r).symm, serves⟩
    · left
      rw [regionUses_putRegion, if_neg e] at used
      exact ⟨used, by simp [putRegion, e, copyRegistration, countRegistration, putRegistration]⟩
  | list | unlist | dropRegion | dropRegionLast =>
    exact .inl ⟨recounted (books.pos_of_hand (mem_singleton_self _)) used,
      countRegion_object s _ _ id⟩
  | borrow there =>
    exact .inl ⟨recounted (books.pos_of_borrowed there) used, countRegion_object s _ _ id⟩
  | copy there =>
    exact .inl ⟨recounted (books.pos_of_borrowed (.inl there)) used, countRegion_object s _ _ id⟩
  | _ => exact .inl ⟨used, rfl, rfl⟩

theorem Pointed.keep (h : Pointed s (F + M)) (regions : RegionBooks s (F + M))
    (books : RegistrationBooks s (F + M))
    (unmade : ∀ r ms, .building r ms ∈ M → s.registrationUses r = 0)
    (move : Move caps t s M s' M') : Pointed s' (F + M') := by
  constructor
  · intro r v mem
    have old (mem : .fresh r v ∈ F + M ∨ .registration r v ∈ F + M) :
      (s'.registrations r).reg = v :=
      (move.reg_kept unmade (books.pos_of_mem mem)).trans (h.value r v mem)
    have apart : (.fresh r v ∈ F ∨ .registration r v ∈ F) ∨
        (.fresh r v ∈ M' ∨ .registration r v ∈ M') := by
      simp only [mem_add] at mem
      tauto
    rcases apart with mem | mem
    · exact old (mem.imp (mem_add.mpr <| .inl ·) (mem_add.mpr <| .inl ·))
    · rcases move.pointer mem with mem | new
      · exact old (mem.imp (mem_add.mpr <| .inr ·) (mem_add.mpr <| .inr ·))
      · exact new
  · intro id used
    rcases move.region_kept regions used with ⟨before, region, registration⟩ | new
    · obtain ⟨same, serves⟩ := h.region id before
      have shared : 0 < s.registrationUses (s.regionObjects id).registration := by
        have there : id ∈ s.handles (s.regionObjects id).registration :=
          mem_handles.mpr ⟨regions.born before, before, rfl⟩
        have := Finset.card_pos.mpr ⟨id, there⟩
        have := books.uses (s.regionObjects id).registration
        omega
      rw [region, registration, move.reg_kept unmade shared]
      exact ⟨same, serves⟩
    · exact new

/-! ## All the books -/

structure Owned (caps : ProviderId → ProviderCaps) (s : Registrar) (M : Multiset Hand) : Prop where
  locks : Locks s M
  regions : RegionBooks s M
  registrations : RegistrationBooks s M
  staged : Staged caps s M
  pointed : Pointed s M

namespace Owned

theorem unmade (h : Owned caps s M) {r : RegistrationId} {ms : List Mint}
    (mem : .building r ms ∈ M) : s.registrationUses r = 0 := by
  obtain ⟨M', rfl⟩ := Multiset.exists_cons_of_mem mem
  have staged := h.staged
  rw [← singleton_add, add_comm] at staged
  obtain ⟨-, -, unused, -⟩ := staged.of_building
  exact unused

theorem holds (h : Owned caps s M) {x : Hand} (mem : x ∈ M) : x.Holds s := by
  cases x with
  | locking t c => exact h.locks.knows t c mem
  | fresh r v => exact h.pointed.value r v (.inl mem)
  | registration r v => exact h.pointed.value r v (.inr mem)
  | _ => trivial

theorem keep (h : Owned caps s (F + M)) (move : moves caps t s M s' M') :
    Owned caps s' (F + M') := by
  have move := move fun x mem => h.holds (mem_add.mpr (.inr mem))
  have unmade : ∀ r ms, .building r ms ∈ M → s.registrationUses r = 0 := fun r ms mem =>
    h.unmade (mem_add.mpr (.inr mem))
  exact {
    locks := h.locks.keep move
    regions := h.regions.keep move
    registrations := h.registrations.keep h.regions unmade move
    staged := h.staged.keep h.registrations move
    pointed := h.pointed.keep h.regions h.registrations unmade move }

theorem start : Owned caps start 0 where
  locks := ⟨by simp, by simp⟩
  regions := ⟨fun _ => rfl, by simp, by simp, fun _ _ => rfl⟩
  registrations := by
    have none (r : RegistrationId) : Registrar.start.handles r = ∅ := by
      refine Finset.eq_empty_of_forall_notMem fun id mem => ?_
      exact absurd (mem_handles.mp mem).2.1 (lt_irrefl 0)
    exact ⟨fun r => by rw [none]; rfl, fun r => Nat.zero_le 1⟩
  staged := ⟨fun r => .idle rfl rfl, fun r _ => ⟨rfl, rfl, rfl⟩, by simp [Registrar.start]⟩
  pointed := ⟨by simp, fun id used => absurd used (lt_irrefl 0)⟩

end Owned

end Hux.Registrar
