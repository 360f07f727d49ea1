import Hux.Ownership

/-!
# The registrar's programs keep to the moves

One lemma for each function: with what in hand it can be called, and with what it
returns. `Spent` is what may be left over: a registration that no transport took.
-/

namespace Hux.Registrar
open Interleave (Tid Follows)

variable {caps : ProviderId → ProviderCaps} {t : Tid} {α β : Type} {M : Multiset Hand}
  {Q : α → Multiset Hand → Prop}

/-- Run by thread `t` with `M` in hand, the program keeps to the moves and returns as
`Q` says. -/
abbrev Keeps (caps : ProviderId → ProviderCaps) (t : Tid) (p : Registering α)
    (Q : α → Multiset Hand → Prop) (M : Multiset Hand) : Prop :=
  Follows (moves caps) t p Q M

/-- The program uses up all of it. -/
abbrev Spends (caps : ProviderId → ProviderCaps) (t : Tid) (p : Registering α) (M : Multiset Hand) :
    Prop :=
  Keeps caps t p (fun _ M' => M' = 0) M

/-! ## Atoms -/

variable {f : Registrar → α × Registrar}

theorem Keeps.change (h : ∀ s, ∃ M', moves caps t s M (f s).2 M' ∧ Q (f s).1 M') :
    Keeps caps t (change f) Q M := by
  intro s e b s' step
  obtain ⟨M', move, post⟩ := h s
  rw [Option.some.inj step] at move post
  exact ⟨M', .of move, post⟩

theorem Keeps.change? {f : Registrar → Option (α × Registrar)}
    (h : ∀ s b s', f s = some (b, s') → ∃ M', moves caps t s M s' M' ∧ Q b M') :
    Keeps caps t (change? f) Q M := by
  intro s e b s' step
  obtain ⟨M', move, post⟩ := h s b s' step
  exact ⟨M', .of move, post⟩

theorem Keeps.locked (h : ∀ s, s.mu = none → ∃ M', moves caps t s M (f s).2 M' ∧ Q (f s).1 M') :
    Keeps caps t (locked f) Q M := by
  intro s e b s' step
  dsimp only at step
  split at step
  · rename_i free
    obtain ⟨M', move, post⟩ := h s free
    rw [Option.some.inj step] at move post
    exact ⟨M', .of move, post⟩
  · cases step

theorem Keeps.inside (h : ∀ s, s.mu = some t → ∃ M', moves caps t s M (f s).2 M' ∧ Q (f s).1 M') :
    Keeps caps t (inside f) Q M := by
  intro s e b s' step
  dsimp only at step
  split at step
  · rename_i mine
    obtain ⟨M', move, post⟩ := h s mine
    rw [Option.some.inj step] at move post
    exact ⟨M', .of move, post⟩
  · cases step

theorem keeps_change {M' : Multiset Hand} (move : ∀ s, moves caps t s M (f s).2 M') :
    Keeps caps t (change f) (fun _ N => N = M') M :=
  Keeps.change fun s => ⟨M', move s, rfl⟩

/-- Leaves alone everything the books are about. -/
theorem moves_touch {s : Registrar} (retired : RegionId → Bool) (inflight finished : List RequestId)
    (reused created : Nat) :
    moves caps t s M { s with
      retired := retired, inflight := inflight, finished := finished
      registrationsReused := reused, registrationsCreated := created } M :=
  fun _ => .touch retired inflight finished reused created

theorem moves_still (s : Registrar) : moves caps t s M s M :=
  moves_touch s.retired s.inflight s.finished s.registrationsReused s.registrationsCreated

/-! ## Pointers that go -/

theorem keeps_deregisterRegions (r : RegistrationId) (held : List (ProviderId × Nat)) :
    Spends caps t (deregisterRegions r held) (dying r held) := by
  induction held with
  | nil => exact .ret rfl
  | cons h held ih =>
    exact Follows.onto (keeps_change fun _ _ => .handBack) fun _ => ih

theorem keeps_dropRegistrationPtr (r : RegistrationId) (v : Registration) :
    Spends caps t (dropRegistrationPtr r) {.registration r v} := by
  refine Follows.bind (Q := fun held M => M = (held.elim 0 (dying r))) (Keeps.change fun s => ?_) ?_
  · by_cases last : s.registrationUses r = 1
    · refine ⟨dying r (s.registrations r).held, fun _ => .dropLast last, ?_⟩
      simp [last]
    · refine ⟨0, fun _ => .drop last, ?_⟩
      simp [last]
  · rintro (_ | held) _ rfl
    · exact .ret rfl
    · exact keeps_deregisterRegions r held

/-- A pointer to each of these registrations. -/
inductive RegistrationPtrs : List RegistrationId → Multiset Hand → Prop
  | nil : RegistrationPtrs [] 0
  | cons {r : RegistrationId} {rs : List RegistrationId} {M : Multiset Hand} (v : Registration) :
      RegistrationPtrs rs M → RegistrationPtrs (r :: rs) (M + {.registration r v})

theorem RegistrationPtrs.snoc {rs : List RegistrationId} (h : RegistrationPtrs rs M)
    (r : RegistrationId) (v : Registration) :
    RegistrationPtrs (rs ++ [r]) (M + {.registration r v}) := by
  induction h with
  | nil => exact .cons v .nil
  | cons v' _ ih =>
    rw [add_right_comm]
    exact .cons v' ih

theorem keeps_dropRegistrationPtrs {rs : List RegistrationId} (h : RegistrationPtrs rs M) :
    Spends caps t (dropRegistrationPtrs rs) M := by
  induction h with
  | nil => exact .ret rfl
  | cons v _ ih =>
    exact Follows.spend (keeps_dropRegistrationPtr _ v) fun _ => ih

theorem keeps_dropRegionPtr (id : RegionId) : Spends caps t (dropRegionPtr id) {.region id} := by
  refine Follows.bind (Q := fun reg M => ∃ v, M = reg.elim 0 ({.registration · v}))
    (Keeps.change fun s => ?_) ?_
  · by_cases last : s.regionUses id = 1
    · exact ⟨_, fun _ => .dropRegionLast last, _, by rw [if_pos last]; rfl⟩
    · exact ⟨0, fun _ => .dropRegion last, ⟨0, 0, ⟨0, 0⟩, 0, [], 0, 0⟩, by rw [if_neg last]; rfl⟩
  · rintro (_ | r) _ ⟨v, rfl⟩
    · exact .ret rfl
    · exact keeps_dropRegistrationPtr r v

theorem keeps_dropRegionPtrs (ids : List RegionId) :
    Spends caps t (dropRegionPtrs ids) (regionPtrs ids) := by
  induction ids with
  | nil => exact .ret rfl
  | cons id ids ih =>
    rw [regionPtrs_cons]
    exact Follows.spend (keeps_dropRegionPtr id) fun _ => ih

/-! ## The cache -/

theorem keeps_findRegistration (addr length : Nat) (device : DeviceId) (access : AccessFlags) :
    Keeps caps t (findRegistration addr length device access) (fun found M =>
      match found with
      | some r =>
        ∃ v, M = {.registration r v} ∧ registrationCovers v addr length device access = true
      | none => M = 0) 0 := by
  refine Keeps.locked fun s free => ?_
  cases found : s.regCache.find? fun r =>
      registrationCovers (s.registrations r).reg addr length device access with
  | some r =>
    have covers := List.find?_some found
    exact ⟨_, fun _ => .find free (List.mem_of_find?_eq_some found), _, rfl, covers⟩
  | none => exact ⟨0, moves_still s, rfl⟩

theorem keeps_unshared (r : RegistrationId) : Keeps caps t (unshared r) (fun _ M' => M' = M) M :=
  Keeps.inside fun s _ => ⟨M, moves_still s, rfl⟩

theorem keeps_lock : Keeps caps t lock (fun _ M => ∃ c, M = {.locking t c}) 0 := by
  intro s e b s' step
  dsimp only at step
  split at step
  · rename_i free
    cases step
    exact ⟨_, .of fun _ => .lock free, _, rfl⟩
  · cases step

theorem keeps_unlock (c : List RegistrationId) : Spends caps t unlock {.locking t c} :=
  Keeps.inside fun _ mine => ⟨0, fun _ => .unlock mine, rfl⟩

/-- Whoever has the lock sees the cache as it knows it. -/
theorem keeps_readCache (c : List RegistrationId) :
    Keeps caps t (inside fun s => (s.regCache, s)) (fun cache M => M = {.locking t cache})
      {.locking t c} := by
  refine Keeps.inside fun s mine => ⟨{.locking t s.regCache}, fun holds => ?_, rfl⟩
  obtain ⟨-, rfl⟩ := holds _ (Multiset.mem_singleton_self _)
  exact moves_still s holds

variable {c : List RegistrationId}

theorem keeps_evict {r : RegistrationId} (there : r ∈ c) :
    Keeps caps t (evict r) (fun _ M => ∃ v, M = {.registration r v} + {.locking t (c.erase r)})
      {.locking t c} := by
  refine Keeps.inside fun s mine => ⟨_, fun holds => ?_, (s.registrations r).reg, rfl⟩
  obtain ⟨-, rfl⟩ := holds _ (Multiset.mem_singleton_self _)
  exact .evict mine there

theorem keeps_firstUnshared (cache : List RegistrationId) :
    Keeps caps t (firstUnshared cache) (fun found M' => M' = M ∧ ∀ r, found = some r → r ∈ cache)
      M := by
  induction cache with
  | nil => exact .ret ⟨rfl, by simp⟩
  | cons r rest ih =>
    refine Follows.onto (keeps_unshared r) fun only => ?_
    split
    · exact .ret ⟨rfl, by simp⟩
    · refine Follows.weaken ih ?_
      rintro found _ ⟨rfl, there⟩
      exact ⟨rfl, fun r' is => List.mem_cons_of_mem _ (there r' is)⟩

theorem keeps_makeRoom (entries turns : Nat) {evicted : List RegistrationId} {N : Multiset Hand}
    (h : RegistrationPtrs evicted N) : Keeps caps t (makeRoom entries turns evicted)
      (fun out M => ∃ c N, RegistrationPtrs out N ∧ M = N + {.locking t c})
      (N + {.locking t c}) := by
  induction turns generalizing evicted c N with
  | zero => exact .ret ⟨c, N, h, rfl⟩
  | succ turns ih =>
    refine Follows.beside (keeps_readCache c) fun cache => ?_
    split
    · exact .ret ⟨cache, N, h, rfl⟩
    · refine Follows.bind (keeps_firstUnshared cache) ?_
      rintro found _ ⟨rfl, there⟩
      cases found with
      | none => exact .ret ⟨cache, N, h, rfl⟩
      | some r =>
        refine Follows.seq (keeps_evict (there r rfl)) ?_
        rintro _ _ ⟨v, rfl⟩
        rw [← add_assoc]
        exact ih (h.snoc r v)

theorem keeps_cacheRegistration (entries : Nat) (r : RegistrationId) (v : Registration) :
    Keeps caps t (cacheRegistration entries r) (fun _ M => M = {.registration r v})
      {.fresh r v} := by
  rw [← add_zero {Hand.fresh r v}]
  refine Follows.seq keeps_lock ?_
  rintro _ _ ⟨c, rfl⟩
  refine Follows.bind (Q := fun _ M => ∃ c, M = {.registration r v} + {.locking t c})
    (Keeps.inside fun s mine => ⟨_, fun holds => ?_, s.regCache ++ [r], rfl⟩) ?_
  · obtain ⟨-, rfl⟩ := holds (.locking t c) (by simp)
    exact .push mine
  · rintro size _ ⟨c, rfl⟩
    rw [← zero_add (_ + _), add_left_comm]
    refine Follows.seq (keeps_makeRoom entries size .nil) ?_
    rintro evicted _ ⟨c, N, ptrs, rfl⟩
    rw [← add_assoc]
    refine Follows.spend (keeps_unlock c) fun _ => ?_
    have dropped : Spends caps t (dropRegistrationPtrs evicted) N :=
      keeps_dropRegistrationPtrs ptrs
    refine (dropped.frame {.registration r v}).weaken ?_
    rintro _ _ ⟨M, rfl, rfl⟩
    rfl

/-- What is still to be looked at is the end of the cache. -/
theorem suffix_erase {r : RegistrationId} {rest : List RegistrationId} (h : r :: rest <:+ c) :
    rest <:+ c.erase r := by
  obtain ⟨front, rfl⟩ := h
  by_cases before : r ∈ front
  · rw [List.erase_append_left _ before]
    exact ⟨front.erase r ++ [r], by simp⟩
  · rw [List.erase_append_right _ before, List.erase_cons_head]
    exact List.suffix_append _ _

theorem keeps_sweep {rest dropped : List RegistrationId} {N : Multiset Hand} (left : rest <:+ c)
    (h : RegistrationPtrs dropped N) : Keeps caps t (sweep rest dropped)
      (fun out M => ∃ c N, RegistrationPtrs out N ∧ M = N + {.locking t c})
      (N + {.locking t c}) := by
  induction rest generalizing c dropped N with
  | nil => exact .ret ⟨c, N, h, rfl⟩
  | cons r rest ih =>
    refine Follows.onto (keeps_unshared r) fun only => ?_
    split
    · refine Follows.seq (keeps_evict (left.subset List.mem_cons_self)) ?_
      rintro _ _ ⟨v, rfl⟩
      rw [← add_assoc]
      exact ih (suffix_erase left) (h.snoc r v)
    · exact ih ((List.suffix_cons r rest).trans left) h

/-! ## Making registrations and regions -/

/-- What may be left of a call: registrations no transport took. -/
def Spent (M : Multiset Hand) : Prop := ∀ h ∈ M, ∃ r, h = .building r []

theorem spent_zero : Spent 0 := by simp [Spent]

theorem Spent.add {M M' : Multiset Hand} (h : Spent M) (h' : Spent M') : Spent (M + M') := by
  intro x mem
  exact (Multiset.mem_add.mp mem).elim (h x) (h' x)

/-- The transport was asked for just this range. -/
def Mint.For (a : Range) (m : Mint) : Prop :=
  m.addr = a.addr ∧ m.length = a.length ∧ m.device = a.device ∧ m.access = a.access

/-- What a transport's answer leaves of the registration being built. -/
def Yields (a : Range) (r : RegistrationId) (prov : ProviderId) (ms : List Mint) :
    Except Status Mint → Multiset Hand → Prop
  | .ok m, M => M = {.building r (ms ++ [m])} ∧ m.provider = prov ∧ Mint.For a m
  | .error _, M => M = {.building r ms}

theorem keeps_registerWith (a : Range) (r : RegistrationId) {provs : List ProviderId}
    {ms : List Mint} {firstError : Status} (distinct : provs.Nodup)
    (new : ∀ m ∈ ms, m.provider ∉ provs) (asked : ∀ m ∈ ms, Mint.For a m) :
    Keeps caps t (registerWith a r provs ms firstError)
      (fun out M => M = {.building r out.1} ∧ ∀ m ∈ out.1, Mint.For a m) {.building r ms} := by
  induction provs generalizing ms firstError with
  | nil => exact .ret ⟨rfl, asked⟩
  | cons prov rest ih =>
    obtain ⟨other, apart⟩ := List.nodup_cons.mp distinct
    refine Follows.bind (Q := Yields a r prov ms) ?_ ?_
    · intro s e b s' step
      dsimp only at step
      split at step
      · cases step
        have other : ∀ m ∈ ms, m.provider ≠ prov := by
          intro m mem same
          exact new m mem (same ▸ List.mem_cons_self)
        exact ⟨_, .of fun _ => .mint (m := ⟨r, prov, _, _, _, _, _, _⟩) other, rfl, rfl, rfl, rfl,
          rfl, rfl⟩
      · cases step
        exact ⟨_, .of (moves_still s), rfl⟩
      · cases step
    · rintro (refused | m) M post
      · obtain rfl := post
        exact ih apart (fun m mem => fun there => new m mem (List.mem_cons_of_mem _ there)) asked
      · obtain ⟨rfl, rfl, mine⟩ := post
        refine ih apart ?_ ?_
        · intro m' mem
          rcases List.mem_append.mp mem with old | here
          · exact fun there => new m' old (List.mem_cons_of_mem _ there)
          · rwa [List.mem_singleton.mp here]
        · intro m' mem
          rcases List.mem_append.mp mem with old | here
          · exact asked m' old
          · rwa [List.mem_singleton.mp here]

section
variable {W : Type} (cfg : Config W)

theorem registrationOf_covers (a : Range) (first : Mint) (rest : List Mint) :
    registrationCovers (registrationOf cfg a first rest) a.addr a.length a.device a.access =
      true := by
  simp [registrationCovers, registrationOf]

theorem registrationOf_grants (a : Range) {first : Mint} {rest : List Mint}
    (asked : ∀ m ∈ first :: rest, Mint.For a m) :
    Grants cfg.caps (registrationOf cfg a first rest) (first :: rest) where
  keys := rfl
  first := ⟨first, List.mem_cons_self, rfl, rfl⟩
  asked := asked

theorem keeps_createRegistration (a : Range) :
    Keeps cfg.caps t (createRegistration cfg a) (fun made M =>
      match made with
      | .ok r => ∃ v, M = {.registration r v} ∧
          registrationCovers v a.addr a.length a.device a.access = true
      | .error _ => Spent M) 0 := by
  refine Follows.onto (N := fun r => {.building r []})
    (Keeps.change fun s => ⟨_, fun _ => .reserve, rfl⟩) fun r => ?_
  refine Follows.bind (keeps_registerWith a r List.nodup_range (by simp) (by simp)) ?_
  rintro ⟨ms, firstError⟩ _ ⟨rfl, asked⟩
  dsimp only
  cases ms with
  | nil =>
    refine .ret ?_
    intro h mem
    exact ⟨r, Multiset.mem_singleton.mp mem⟩
  | cons first rest =>
    have grants := registrationOf_grants cfg a asked
    have covers := registrationOf_covers cfg a first rest
    by_cases on : 0 < cfg.registrationCacheEntries
    · refine Follows.onto (keeps_change fun _ _ => .make grants (.inl rfl)) fun _ => ?_
      rw [if_pos on]
      refine Follows.onto (keeps_cacheRegistration _ r _) fun _ => ?_
      exact .ret ⟨_, rfl, covers⟩
    · refine Follows.onto (keeps_change fun _ _ => .make grants (.inr rfl)) fun _ => ?_
      rw [if_neg on]
      exact .ret ⟨_, rfl, covers⟩

theorem keeps_makeRegion {a : Range} {r : RegistrationId} {v : Registration}
    (covers : registrationCovers v a.addr a.length a.device a.access = true) :
    Spends caps t (makeRegion cfg a r) {.registration r v} := by
  rw [← add_zero {Hand.registration r v}]
  refine Follows.beside (N := fun id => {.numbered id})
    (Keeps.change fun s => ⟨_, fun _ => .number, rfl⟩) fun id => ?_
  refine Follows.onto (N := fun _ => {.registration r v} + {.region id})
    (keeps_change fun s holds => ?_) fun _ => ?_
  · have value : (s.registrations r).reg = v := holds (.registration r v) (by simp)
    rw [add_comm, add_comm {Hand.registration r v}]
    subst value
    exact .build (h := ⟨cfg.identity, id, 1, a.addr, a.length, a.device, a.access, _⟩) rfl covers
  refine Follows.beside (N := fun _ => {.region id})
    (Keeps.locked fun s _ => ⟨_, fun _ => .list, rfl⟩) fun _ => ?_
  refine Follows.spend (keeps_change fun _ _ => .give) fun _ => ?_
  refine Follows.onto (keeps_dropRegistrationPtr r v) fun _ => ?_
  exact .ret rfl

theorem keeps_placeRange (length : Nat) : Spends caps t (placeRange cfg length) 0 := by
  unfold placeRange
  split
  · refine Follows.bind (Q := fun _ M => M = 0) ?_ ?_
    · intro s e b s' step
      dsimp only at step
      split at step
      · cases step
        exact ⟨0, .of (moves_still s), rfl⟩
      · cases step
    · rintro probed _ rfl
      split <;> exact .ret rfl
  · exact .ret rfl

theorem keeps_registerMemory (addr length : Nat) (access : AccessFlags) :
    Keeps cfg.caps t (registerMemory cfg addr length access) (fun _ M => Spent M) 0 := by
  unfold registerMemory
  split
  · exact .ret spent_zero
  refine Follows.bind (keeps_placeRange cfg length) ?_
  rintro (s | device) _ rfl
  · exact .ret spent_zero
  refine Follows.bind (keeps_findRegistration addr length device access) ?_
  rintro (_ | r) M found
  · obtain rfl := found
    refine Follows.onto (keeps_change fun _ => moves_touch _ _ _ _ _) fun _ => ?_
    refine Follows.bind (keeps_createRegistration cfg _) ?_
    rintro (s | r) M made
    · exact .ret made
    · obtain ⟨v, rfl, covers⟩ := made
      refine Follows.onto (keeps_makeRegion cfg covers) fun id => ?_
      exact .ret spent_zero
  · obtain ⟨v, rfl, covers⟩ := found
    refine Follows.onto (keeps_change fun _ => moves_touch _ _ _ _ _) fun _ => ?_
    refine Follows.onto (keeps_makeRegion cfg (a := ⟨addr, length, device, access⟩) covers)
      fun id => ?_
    exact .ret spent_zero

theorem keeps_registerEach (access : AccessFlags) (ranges : List (Nat × Nat))
    {out : List (Status × Option RegionId)} (spent : Spent M) :
    Keeps cfg.caps t (registerEach cfg access ranges out) (fun _ M => Spent M) M := by
  induction ranges generalizing out M with
  | nil => exact .ret spent
  | cons range rest ih =>
    rw [← add_zero M]
    refine Follows.seq (keeps_registerMemory cfg range.1 range.2 access) ?_
    intro result M' more
    exact ih (spent.add more)

end

/-! ## Regions and requests -/

theorem keeps_borrow (id : RegionId) :
    Keeps caps t (borrow id) (fun _ M => M = {.region id}) 0 := by
  refine Keeps.change? fun s b s' step => ?_
  split at step
  · rename_i there
    cases step
    exact ⟨_, fun _ => .borrow (.inl there), rfl⟩
  · cases step

theorem keeps_unlist (id : RegionId) :
    Keeps caps t (unlist id) (fun _ M => M = {.region id}) {.region id} := by
  refine Keeps.locked fun s _ => ?_
  split
  · exact ⟨_, moves_still s, rfl⟩
  · split
    · exact ⟨_, fun _ => .unlist ‹_›, rfl⟩
    · exact ⟨_, moves_still s, rfl⟩

theorem keeps_findRegion (id : RegionId) :
    Keeps caps t (findRegion id) (fun found M => M = if found then {.region id} else 0) 0 := by
  refine Keeps.locked fun s _ => ?_
  split
  · exact ⟨_, fun _ => .borrow (.inr ‹_›), rfl⟩
  · exact ⟨_, moves_still s, rfl⟩

theorem keeps_look {f : Registrar → α} : Keeps caps t (look f) (fun _ M' => M' = M) M :=
  Keeps.change fun s => ⟨M, moves_still s, rfl⟩

theorem keeps_otherChecks : Keeps caps t otherChecks (fun _ M' => M' = M) M := by
  intro s e b s' step
  dsimp only at step
  split at step
  · cases step
    exact ⟨M, .of (moves_still s), rfl⟩
  · cases step

theorem keeps_holdRegions (ids held : List RegionId) :
    Keeps caps t (holdRegions ids held) (fun out M => M = regionPtrs out.2) (regionPtrs held) := by
  induction ids generalizing held with
  | nil => exact .ret rfl
  | cons id rest ih =>
    rw [← add_zero (regionPtrs held)]
    refine Follows.beside (keeps_findRegion id) fun found => ?_
    cases found with
    | false =>
      simp only [Bool.false_eq_true, ↓reduceIte, add_zero]
      exact .ret rfl
    | true =>
      simp only [↓reduceIte]
      refine Follows.onto keeps_look fun gone => ?_
      split
      · exact .ret (regionPtrs_cons id held).symm
      · refine Follows.bind keeps_otherChecks ?_
        rintro (_ | s) _ rfl
        · have := ih (held ++ [id])
          rwa [regionPtrs_append] at this
        · exact .ret (regionPtrs_cons id held).symm

theorem keeps_accept (held : List RegionId) :
    Keeps caps t (accept held) (fun q M => M = if q.isSome then 0 else regionPtrs held)
      (regionPtrs held) := by
  refine Keeps.locked fun s _ => ?_
  split
  · exact ⟨_, moves_still s, rfl⟩
  · exact ⟨_, fun _ => .accept _, rfl⟩

/-! ## Calls -/

theorem keeps_deregisterMemory (id : RegionId) : Spends caps t (deregisterMemory id) 0 := by
  refine Follows.onto (keeps_borrow id) fun _ => ?_
  refine Follows.onto (keeps_change fun _ => moves_touch _ _ _ _ _) fun _ => ?_
  refine Follows.onto (keeps_unlist id) fun gone => ?_
  refine Follows.onto (keeps_dropRegionPtr id) fun _ => ?_
  exact .ret rfl

theorem keeps_releaseCachedRegistrations : Spends caps t releaseCachedRegistrations 0 := by
  refine Follows.bind keeps_lock ?_
  rintro _ _ ⟨c, rfl⟩
  refine Follows.onto (keeps_readCache c) fun cache => ?_
  rw [← zero_add {Hand.locking t cache}]
  refine Follows.bind (keeps_sweep (List.suffix_refl cache) .nil) ?_
  rintro dropped _ ⟨c, N, ptrs, rfl⟩
  refine Follows.spend (keeps_unlock c) fun _ => ?_
  refine Follows.onto (keeps_dropRegistrationPtrs ptrs) fun _ => ?_
  exact .ret rfl

/-- A submission that is refused gives its pointers back. -/
theorem keeps_refuse (held : List RegionId) (reply : Reply) :
    Spends caps t (dropRegionPtrs held >>= fun _ => pure reply) (regionPtrs held) := by
  refine Follows.onto (keeps_dropRegionPtrs held) fun _ => ?_
  exact .ret rfl

theorem keeps_submitVector (regions : List RegionId) : Spends caps t (submitVector regions) 0 := by
  refine Follows.bind keeps_otherChecks ?_
  rintro (_ | s) _ rfl
  · refine Follows.bind (keeps_holdRegions regions []) ?_
    rintro ⟨_ | s, held⟩ _ rfl
    · refine Follows.bind keeps_otherChecks ?_
      rintro (_ | s) _ rfl
      · refine Follows.bind (keeps_accept held) ?_
        rintro (_ | q) _ rfl
        · exact keeps_refuse held _
        · exact .ret rfl
      · exact keeps_refuse held _
    · exact keeps_refuse held _
  · exact .ret rfl

theorem keeps_finishRequest (q : RequestId) : Spends caps t (finishRequest q) 0 := by
  refine Follows.onto (N := fun _ => 0)
    (Keeps.locked fun s _ => ⟨0, moves_touch _ _ _ _ _, rfl⟩) fun claimed => ?_
  split
  · refine Follows.onto (keeps_change fun _ => moves_touch _ _ _ _ _) fun _ => ?_
    exact .ret rfl
  · exact .ret rfl

theorem keeps_dropRequest (q : RequestId) : Spends caps t (dropRequest q) 0 := by
  refine Follows.onto (N := regionPtrs) (Keeps.change? fun s b s' step => ?_) fun held =>
    keeps_refuse held _
  split at step
  · rename_i o there
    split at step
    · rename_i finished
      cases step
      exact ⟨_, fun _ => .release there finished.1, rfl⟩
    · cases step
  · cases step

theorem keeps_copyHandle (id : RegionId) : Spends caps t (copyHandle id) 0 := by
  refine Follows.onto (N := fun _ => 0) (Keeps.change? fun s b s' step => ?_) fun _ => .ret rfl
  split at step
  · rename_i there
    cases step
    exact ⟨0, fun _ => .copy there, rfl⟩
  · cases step

theorem keeps_dropHandle (id : RegionId) : Spends caps t (dropHandle id) 0 := by
  refine Follows.onto (N := fun _ => {.region id}) (Keeps.change? fun s b s' step => ?_) fun _ =>
    Follows.onto (keeps_dropRegionPtr id) fun _ => .ret rfl
  split at step
  · rename_i there
    cases step
    exact ⟨_, fun _ => .takeBack there, rfl⟩
  · cases step

/-- Every call keeps to the moves and ends with nothing in hand. -/
theorem keeps_body {W : Type} (cfg : Config W) (c : Call) (t : Tid) :
    Keeps cfg.caps t (c.body cfg) (fun _ M => Spent M) 0 := by
  have nothing {p : Registering Reply} (h : Keeps cfg.caps t p (fun _ M => M = 0) 0) :
      Keeps cfg.caps t p (fun _ M => Spent M) 0 :=
    h.weaken fun _ _ none => none ▸ spent_zero
  cases c with
  | registerMemory addr length access =>
    refine Follows.bind (keeps_registerMemory cfg addr length access) ?_
    intro result M spent
    exact .ret spent
  | registerMemoryBatch addrs lengths access =>
    simp only [Call.body]
    split
    · exact .ret spent_zero
    · refine Follows.bind (keeps_registerEach cfg access _ spent_zero) ?_
      intro out M spent
      exact .ret spent
  | deregisterMemory id => exact nothing (keeps_deregisterMemory id)
  | releaseCachedRegistrations => exact nothing keeps_releaseCachedRegistrations
  | submitVector regions => exact nothing (keeps_submitVector regions)
  | finishRequest q => exact nothing (keeps_finishRequest q)
  | dropRequest q => exact nothing (keeps_dropRequest q)
  | copyHandle id => exact nothing (keeps_copyHandle id)
  | dropHandle id => exact nothing (keeps_dropHandle id)

end Hux.Registrar
