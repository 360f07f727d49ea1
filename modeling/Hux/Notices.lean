import Hux.Amid
import Hux.Effects
import Hux.Local

/-!
# Notices that a region is gone

All peers share one table of imported regions. A notice clears the flags of those
it is about; `build_subops` asks for the flag of each region it is given.

* `Later`: what holds of the table from one state on;
* `steps_remotes`: what the steps of calls make of the table;
* `Withdraws`: what the handling of a notice comes to, amid other calls;
* `amid_buildSubops`: what is gone is refused;
* `ready_events_are_held_iff`: a handoff, whether or not what it names is there.
-/

namespace Hux
open Interleave (Tid Steps Stable Amid Took Stepped)
open Relation (ReflTransGen)
open Wire (Bytes)

/-! ## The table -/

section
variable {W : Type}

namespace Directory

/-- From one state on: no object is made twice, none changes what it was imported
as, and a flag that is cleared stays so. -/
structure Later (d d' : Directory W) : Prop where
  next : d.nextRemote ≤ d'.nextRemote
  desc : ∀ o < d.nextRemote, (d'.remoteObjects o).desc = (d.remoteObjects o).desc
  gone : ∀ o < d.nextRemote, (d.remoteObjects o).valid = false → (d'.remoteObjects o).valid = false

theorem Later.refl (d : Directory W) : Later d d := ⟨le_rfl, fun _ _ => rfl, fun _ _ h => h⟩

theorem Later.trans {d d' d'' : Directory W} (h : Later d d') (h' : Later d' d'') :
    Later d d'' where
  next := h.next.trans h'.next
  desc o ho := (h'.desc o (lt_of_lt_of_le ho h.next)).trans (h.desc o ho)
  gone o ho was := h'.gone o (lt_of_lt_of_le ho h.next) (h.gone o ho was)

theorem Later.clear (d : Directory W) (obj : RemoteId) : Later d (d.invalidate obj) := by
  refine ⟨le_rfl, fun o _ => ?_, fun o _ was => ?_⟩ <;> by_cases mine : o = obj
  · subst mine; simp [invalidate]
  · simp [invalidate, mine]
  · subst mine; simp [invalidate]
  · simpa [invalidate, mine] using was

theorem Later.step {d d' : Directory W} (step : RemotesStep d d') : Later d d' := by
  cases step with
  | same remotes objects next =>
    exact ⟨next.ge, fun o _ => by rw [objects], fun o _ was => by rw [objects]; exact was⟩
  | cleared obj made => exact made ▸ .clear d obj
  | imported peer desc made =>
    subst made
    have old {o : RemoteId} (ho : o < d.nextRemote) :
        (d.importRegion peer desc).2.remoteObjects o = d.remoteObjects o :=
      Function.update_of_ne ho.ne _ _
    exact ⟨Nat.le_succ _, fun o ho => by rw [old ho], fun o ho was => by rw [old ho]; exact was⟩

/-- The entry under a key stays as it is. -/
def Unmoved (peer : PeerId) (region : RegionId) (d d' : Directory W) : Prop :=
  ∀ o, ((peer, region), o) ∈ d'.remotes ↔ ((peer, region), o) ∈ d.remotes

/-- What a peer imported under that id, if anything, is not valid any more. -/
def Gone (peer : PeerId) (region : RegionId) (d : Directory W) : Prop :=
  ∀ o, ((peer, region), o) ∈ d.remotes → (d.remoteObjects o).valid = false

/-- Until it is imported again. -/
theorem Gone.step {d d' : Directory W} {peer : PeerId} {region : RegionId} (indexed : d.Indexed)
    (step : RemotesStep d d') (unmoved : Unmoved peer region d d') (gone : d.Gone peer region) :
    d'.Gone peer region := by
  intro o ho
  have entry := (unmoved o).mp ho
  exact (Later.step step).gone o (indexed.objects _ entry) (gone o entry)

/-- Whose connection it is, 0 if nobody's. -/
def Owns (d : Directory W) (conn : Option ConnId) (peer : PeerId) : Prop :=
  match conn with
  | none => peer = 0
  | some c => peer ∈ d.peers ∧ d.hasConn c peer = true ∨
      peer = 0 ∧ ∀ p ∈ d.peers, d.hasConn c p = false

end Directory

end

/-! ## The steps of calls -/

section
variable {T : Transport} {W : Type}

theorem Effect.remotes {k : Kind} {s s' : World T W} (h : Effect k s s') :
    s.dir.RemotesStep s'.dir := by
  cases h with
  | forget _ written =>
    subst written
    exact .same rfl rfl rfl
  | note same | settle same => exact .same (by rw [same.dir]) (by rw [same.dir]) (by rw [same.dir])
  | tables written _ _ _ _ _ _ remotes =>
    subst written
    exact remotes
  | _ => exact .same rfl rfl rfl

theorem steps_remotes [LaneCost W] (setup : Setup W) (c : Call) :
    Steps (fun s s' : World T W => s.dir.RemotesStep s'.dir) (c.body T setup) := by
  refine (effects_body setup c (K := Set.univ) fun _ _ => Set.mem_univ _).mono ?_
  rintro s s' (plain | ⟨k, -, effect⟩)
  · exact .same (by rw [plain.same.dir]) (by rw [plain.same.dir]) (by rw [plain.same.dir])
  · exact effect.remotes

end

/-! ## Handling -/

section
variable {T : Transport} {W : Type} {t : Tid} {R : World T W → World T W → Prop}
  {s s' : World T W} {l : List (World T W × World T W)}

/-- What a program goes on with that reads. -/
theorem amid_look_bind {α β : Type} {f : World T W → α} {g : α → Engine T W β} {b : β}
    (amid : Amid R t (look f >>= g) s l b s') :
    ∃ s₁ l', ReflTransGen R s s₁ ∧ Amid R t (g (f s₁)) s₁ l' b s' ∧ l = (s₁, s₁) :: l' := by
  cases amid with
  | atom on step rest =>
    cases step
    exact ⟨_, _, on, rest, rfl⟩

theorem amid_peerForConn {conn : Option ConnId} {peer : PeerId}
    (amid : Amid R t (peerForConn conn) s l peer s') :
    ReflTransGen R s s' ∧ (∀ x ∈ l, x.2 = x.1) ∧
      ∃ s₁, s₁.dir.Owns conn peer ∧ (conn ≠ none → (s₁, s₁) ∈ l) := by
  cases conn with
  | none =>
    cases amid with
    | ret on => exact ⟨on, by simp, s, rfl, fun h => absurd rfl h⟩
  | some c =>
    obtain ⟨l₁, l₂, found, s₁, rfl, walked, rest⟩ := amid.bind
    cases rest with
    | ret on =>
      obtain ⟨s₂, s₃, e, before, step, after, rfl⟩ := walked.single
      dsimp only at step
      split at step
      · split at step
        · rename_i perm
          cases step
          refine ⟨(before.trans after).trans on, by simp, s₂, ?_, by simp⟩
          cases found with
          | nil =>
            refine .inr ⟨rfl, fun p hp => ?_⟩
            have none := perm.symm.eq_nil
            simpa using List.filter_eq_nil_iff.mp none p hp
          | cons p others =>
            have listed := perm.mem_iff.mp (List.mem_cons_self (a := p) (l := others))
            exact .inl (List.mem_filter.mp listed)
        · cases step
      · cases step

variable (table : ∀ s s', R s s' → s.dir.RemotesStep s'.dir)

include table in
theorem later_of_reached (on : ReflTransGen R s s') : s.dir.Later s'.dir := by
  induction on with
  | refl => exact .refl _
  | tail _ step ih => exact ih.trans (.step (table _ _ step))

include table in
theorem stable_indexed : Stable R fun s => s.dir.Indexed :=
  fun s s' step indexed => indexed.step (table s s' step)

include table in
/-- Every object that has the generation is cleared, whatever else happens, and no
other is touched. -/
theorem amid_invalidateLoop {generation : Generation} {named : List RemoteId}
    (made : ∀ o ∈ named, o < s.dir.nextRemote)
    (amid : Amid R t (invalidateLoop generation named) s l () s') :
    s.dir.Later s'.dir ∧
      (∀ x ∈ l, x.2 = x.1 ∨ ∃ o ∈ named, (s.dir.remoteObjects o).desc.generation = generation ∧
        x.2 = { x.1 with dir := x.1.dir.invalidate o }) ∧
      ∀ o ∈ named, (s.dir.remoteObjects o).desc.generation = generation →
        (s'.dir.remoteObjects o).valid = false := by
  induction named generalizing s l with
  | nil =>
    cases amid with
    | ret on => exact ⟨later_of_reached table on, by simp, by simp⟩
  | cons obj rest ih =>
    obtain ⟨s₁, l₁, before, tail, rfl⟩ := amid_look_bind amid
    have first := later_of_reached table before
    have read := first.desc obj (made obj List.mem_cons_self)
    have old {o : RemoteId} (ho : o ∈ rest) : o < s.dir.nextRemote :=
      made o (List.mem_cons_of_mem _ ho)
    split at tail
    · rename_i same
      rw [read] at same
      cases tail with
      | @atom _ _ _ _ s₂ _ _ _ _ _ _ upTo step more =>
      cases step
      have second := first.trans (later_of_reached table upTo)
      have third := second.trans (.clear _ obj)
      obtain ⟨fourth, steps, done⟩ := ih (s := { s₂ with dir := s₂.dir.invalidate obj })
        (fun o ho => (old ho).trans_le third.next) more
      refine ⟨third.trans fourth, ?_, ?_⟩
      · simp only [List.mem_cons]
        rintro x (rfl | rfl | hx)
        · exact .inl rfl
        · exact .inr ⟨obj, .inl rfl, same, rfl⟩
        · apply (steps x hx).imp_right
          rintro ⟨o, ho, generation, wrote⟩
          exact ⟨o, .inr ho, third.desc o (old ho) ▸ generation, wrote⟩
      · intro o ho generation
        rcases List.mem_cons.mp ho with rfl | ho
        · have bound := made o List.mem_cons_self
          have now : ((s₂.dir.invalidate o).remoteObjects o).valid = false := by
            simp [Directory.invalidate]
          exact fourth.gone o (bound.trans_le second.next) now
        · exact done o ho ((third.desc o (old ho)).symm ▸ generation)
    · rename_i other
      rw [read] at other
      obtain ⟨second, steps, done⟩ := ih (fun o ho => (old ho).trans_le first.next) tail
      refine ⟨first.trans second, ?_, ?_⟩
      · simp only [List.mem_cons]
        rintro x (rfl | hx)
        · exact .inl rfl
        · apply (steps x hx).imp_right
          rintro ⟨o, ho, generation, wrote⟩
          exact ⟨o, .inr ho, first.desc o (old ho) ▸ generation, wrote⟩
      · intro o ho generation
        rcases List.mem_cons.mp ho with rfl | ho
        · exact absurd generation other
        · exact done o ho ((first.desc o (old ho)).symm ▸ generation)

/-- What the handling of a notice by the steps `l` comes to, for the table as it
was in `s₁` when the handler looked at it. -/
structure Withdraws (peer : PeerId) (b : RegionInvalidateBody)
    (l : List (World T W × World T W)) (s₁ s' : World T W) : Prop where
  steps : ∀ x ∈ l, x.2 = x.1 ∨ ∃ y ∈ s₁.dir.remotes, s₁.dir.About peer b y ∧
    x.2 = { x.1 with dir := x.1.dir.invalidate y.2 }
  named : ∀ y ∈ s₁.dir.remotes, s₁.dir.About peer b y → (s'.dir.remoteObjects y.2).valid = false
  others : ∀ y ∈ s₁.dir.remotes, ¬s₁.dir.About peer b y → ∀ x ∈ l,
    x.2.dir.remoteObjects y.2 = x.1.dir.remoteObjects y.2

include table in
theorem amid_handleControl (setup : Setup W) {prov : ProviderId} {m : ControlMessage}
    {b : RegionInvalidateBody} (notice : m.type = ControlType.regionInvalidate.code)
    (decoded : decodeRegionInvalidate m.payload = .ok b) (indexed : s.dir.Indexed)
    (amid : Amid R t (handleControl setup prov m) s l () s') :
    ∃ s₁ s₂ peer, ReflTransGen R s s₁ ∧ s₁.dir.Later s'.dir ∧ (s₁, s₁) ∈ l ∧
      s₂.dir.Owns m.conn peer ∧ (m.conn ≠ none → (s₂, s₂) ∈ l) ∧ Withdraws peer b l s₁ s' := by
  obtain ⟨l₁, l₂, peer, s₃, rfl, whose, tail⟩ := amid.bind
  obtain ⟨before, looked, s₂, owns, seen⟩ := amid_peerForConn whose
  have other : ControlType.regionInvalidate.code ≠ ControlType.readyHandoff.code ∧
    ControlType.regionInvalidate.code ≠ ControlType.notification.code := by decide
  simp only [notice, other.1, other.2, if_false, if_true, handleRegionInvalidate, decoded] at tail
  obtain ⟨s₁, l₃, looking, more, rfl⟩ := amid_look_bind tail
  have reached := before.trans looking
  have indexed₁ := (stable_indexed table).later reached indexed
  have made : ∀ o ∈ s₁.dir.named peer b, o < s₁.dir.nextRemote := by
    intro o ho
    obtain ⟨x, hx, rfl⟩ := Directory.entry_of_named ho
    exact indexed₁.objects x hx
  obtain ⟨later, steps, done⟩ := amid_invalidateLoop table made more
  have wrote : ∀ x ∈ l₁ ++ (s₁, s₁) :: l₃, x.2 = x.1 ∨ ∃ y ∈ s₁.dir.remotes,
      s₁.dir.About peer b y ∧ x.2 = { x.1 with dir := x.1.dir.invalidate y.2 } := by
    simp only [List.mem_append, List.mem_cons]
    rintro x (hx | rfl | hx)
    · exact .inl (looked x hx)
    · exact .inl rfl
    · rcases steps x hx with same | ⟨o, ho, generation, wrote⟩
      · exact .inl same
      · obtain ⟨y, hy, rfl, is⟩ := (Directory.mem_named_iff indexed₁).mp ⟨ho, generation⟩
        exact .inr ⟨y, hy, is, wrote⟩
  refine ⟨s₁, s₂, peer, reached, later, by simp, owns, fun some => ?_, wrote, ?_, ?_⟩
  · exact List.mem_append_left _ (seen some)
  · intro y hy is
    have ⟨ho, generation⟩ := (Directory.mem_named_iff indexed₁).mpr ⟨y, hy, rfl, is⟩
    exact done y.2 ho generation
  · intro y hy not x hx
    rcases wrote x hx with same | ⟨z, hz, is, wrote⟩
    · rw [same]
    · have apart : y.2 ≠ z.2 := fun same => not (indexed₁.once y hy z hz same ▸ is)
      rw [wrote]
      exact Function.update_of_ne apart _ _

/-! ## Refusals -/

variable {peer : PeerId} {region : RegionId}
  (unmoved : ∀ s s', R s s' → s.dir.Unmoved peer region s'.dir)

/-- The region is gone, and the tables are in order. -/
def Withdrawn (peer : PeerId) (region : RegionId) (s : World T W) : Prop :=
  s.dir.Indexed ∧ s.dir.Gone peer region

include table unmoved in
theorem stable_withdrawn : Stable R (Withdrawn peer region) := by
  rintro s s' step ⟨indexed, gone⟩
  exact ⟨indexed.step (table s s' step), gone.step indexed (table s s' step) (unmoved s s' step)⟩

theorem entry_of_findRemote {d : Directory W} {o : RemoteId} {desc : RegionDescriptor}
    (found : d.findRemote peer region = some (o, desc)) : ((peer, region), o) ∈ d.remotes := by
  obtain ⟨x, hx, same⟩ := Option.map_eq_some_iff.mp found
  have key : x.1 = (peer, region) := by simpa using List.find?_some hx
  have listed := List.mem_of_find?_eq_some hx
  cases same
  rw [← key]
  exact listed

include table unmoved in
/-- Whichever pair of segments names it, the loop does not get past that one. -/
theorem amid_buildLoop [LaneCost W] {g : Plan W} {loc remote : List RegionView} {b : Build W}
    {r : Except Status (Build W)} (withdrawn : Withdrawn peer region s)
    (names : ∃ x ∈ loc.zip remote, x.2.region = region)
    (amid : Amid R t (buildLoop lookup g peer loc remote b) s l r s') :
    ∃ st, st ≠ .ok ∧ r = .error st := by
  have stable := stable_withdrawn table unmoved
  have refuse {st : Status} {s : World T W} {l : List (World T W × World T W)} (bad : st ≠ .ok)
      (amid : Amid R t (pure (.error st) : Engine T W (Except Status (Build W))) s l r s') :
      ∃ st, st ≠ .ok ∧ r = .error st := by
    cases amid
    exact ⟨st, bad, rfl⟩
  induction loc generalizing remote b s l with
  | nil => simp at names
  | cons lv ls ih =>
    obtain - | ⟨rv, rs⟩ := remote
    · simp at names
    obtain ⟨s₁, l₁, on, amid₁, rfl⟩ := amid_look_bind amid
    have withdrawn₁ := stable.later on withdrawn
    split at amid₁
    · exact refuse (by decide) amid₁
    obtain ⟨s₂, l₂, on, amid₂, rfl⟩ := amid_look_bind amid₁
    have withdrawn₂ := stable.later on withdrawn₁
    split at amid₂
    · exact refuse (by decide) amid₂
    obtain ⟨s₃, l₃, on, amid₃, rfl⟩ := amid_look_bind amid₂
    have withdrawn₃ := stable.later on withdrawn₂
    split at amid₃
    · exact refuse (by decide) amid₃
    rename_i o desc found
    obtain ⟨s₄, l₄, on, amid₄, rfl⟩ := amid_look_bind amid₃
    split at amid₄
    · rename_i still
      split at amid₄
      · rename_i refused
        exact refuse (splitSegment_error refused) amid₄
      · refine ih (stable.later on withdrawn₃) ?_ amid₄
        obtain ⟨x, hx, this⟩ := names
        rcases List.mem_cons.mp hx with rfl | hx
        · -- the entry was found with its flag cleared, and it stays cleared
          have entry := entry_of_findRemote (this ▸ found)
          have gone := (later_of_reached table on).gone o (withdrawn₃.1.objects _ entry)
            (withdrawn₃.2 o entry)
          rw [gone] at still
          cases still
        · exact ⟨x, hx, this⟩
    · exact refuse (by decide) amid₄

include table unmoved in
theorem amid_buildSubops [LaneCost W] {caps : ProviderId → ProviderCaps} {chunkBytes : Nat}
    {loc remote : List RegionView} {kind : SubOpKind} {q : RequestId} {lanes : List (Lane W)}
    {r : Except Status Built} (withdrawn : Withdrawn peer region s)
    (names : ∃ x ∈ loc.zip remote, x.2.region = region)
    (amid : Amid R t (buildSubops lookup caps chunkBytes peer loc remote kind q lanes) s l r s') :
    ∃ st, st ≠ .ok ∧ r = .error st := by
  unfold buildSubops at amid
  split at amid
  · cases amid
    exact ⟨_, by decide, rfl⟩
  · obtain ⟨l₁, l₂, result, s₁, rfl, loop, rest⟩ := amid.bind
    obtain ⟨st, bad, rfl⟩ := amid_buildLoop table unmoved withdrawn names loop
    cases rest
    exact ⟨st, bad, rfl⟩

include table unmoved in
/-- Still so after a part of a submission that only reads and takes a number. -/
theorem withdrawn_of_effects {α : Type} {p : Engine T W α} {a : α}
    (effects : Effects T W {.number} p) (withdrawn : Withdrawn peer region s)
    (amid : Amid R t p s l a s') : Withdrawn peer region s' := by
  refine amid.along (stable_withdrawn table unmoved) (fun x hx known => ?_) withdrawn
  have same : x.2.dir = x.1.dir := by
    rcases amid.steps effects x hx with plain | ⟨k, number, effect⟩
    · exact plain.same.dir
    · cases Set.mem_singleton_iff.mp number
      generalize x.1 = w, x.2 = w' at effect ⊢
      cases effect <;> rfl
  unfold Withdrawn
  rw [same]
  exact known

include table unmoved in
theorem amid_submitVector [LaneCost W] (setup : Setup W) {loc remote : List RegionView}
    {opts : TransferOptions} {kind : SubOpKind} {reply : Reply}
    (withdrawn : Withdrawn peer region s) (names : ∃ v ∈ remote, v.region = region)
    (amid : Amid R t (submitVector setup peer loc remote opts kind) s l reply s') :
    ∃ st, st ≠ .ok ∧ reply = .request st none := by
  have kept {α : Type} {p : Engine T W α} {a : α} {s s' : World T W}
      {l : List (World T W × World T W)} (effects : Effects T W {.number} p)
      (withdrawn : Withdrawn peer region s) (amid : Amid R t p s l a s') :=
    withdrawn_of_effects table unmoved effects withdrawn amid
  have refuse {st : Status} {s : World T W} {l : List (World T W × World T W)} (bad : st ≠ .ok)
      (amid : Amid R t (pure (.request st none) : Engine T W Reply) s l reply s') :
      ∃ st, st ≠ .ok ∧ reply = .request st none := by
    cases amid
    exact ⟨st, bad, rfl⟩
  have stable := stable_withdrawn table unmoved
  obtain ⟨s₁, l₁, on, amid₁, -⟩ := amid_look_bind amid
  have withdrawn₁ := stable.later on withdrawn
  split at amid₁
  · exact refuse (by decide) amid₁
  split at amid₁
  · exact refuse (by decide) amid₁
  rename_i shape
  split at amid₁
  · exact refuse (by decide) amid₁
  obtain ⟨s₂, l₂, on, amid₂, -⟩ := amid_look_bind amid₁
  have withdrawn₂ := stable.later on withdrawn₁
  split at amid₂
  · exact refuse (by decide) amid₂
  obtain ⟨_, l₃, dep, s₃, -, examined, amid₃⟩ := amid₂.bind
  have withdrawn₃ := kept (apart_dependencyState (by simp) _ _).effects withdrawn₂ examined
  split at amid₃
  · rename_i failed
    exact refuse failed.1 amid₃
  obtain ⟨_, l₄, full, s₄, -, counted, amid₄⟩ := amid₃.bind
  have withdrawn₄ := kept (effects_full setup) withdrawn₃ counted
  split at amid₄
  · exact refuse (by decide) amid₄
  obtain ⟨_, l₅, q, s₅, -, numbered, amid₅⟩ := amid₄.bind
  have withdrawn₅ := kept (effects_nextId rfl) withdrawn₄ numbered
  obtain ⟨s₆, l₆, on, amid₆, -⟩ := amid_look_bind amid₅
  obtain ⟨l₇, l₈, built, s₇, -, building, amid₇⟩ := amid₆.bind
  have paired : ∃ x ∈ loc.zip remote, x.2.region = region := by
    obtain ⟨v, hv, this⟩ := names
    have same : remote.length ≤ loc.length := by
      simp only [Bool.or_eq_true, decide_eq_true_eq, not_or, not_not] at shape
      exact shape.2.ge
    have listed : v ∈ (loc.zip remote).map Prod.snd := by rwa [List.map_snd_zip same]
    obtain ⟨x, hx, rfl⟩ := List.mem_map.mp listed
    exact ⟨x, hx, this⟩
  obtain ⟨st, bad, rfl⟩ := amid_buildSubops table unmoved (stable.later on withdrawn₅) paired
    building
  exact refuse bad amid₇

end

/-! ## Histories -/

section
variable {T : Transport} {W : Type} [LaneCost W] (setup : Setup W) {s₀ s : World T W}

/-- A step that some call takes, and that does not import the region into the peer. -/
def Keeping (peer : PeerId) (region : RegionId) (s s' : World T W) : Prop :=
  Stepped (Call.body T setup) s s' ∧ s.dir.Unmoved peer region s'.dir

theorem table_of_stepped {s s' : World T W} (step : Stepped (Call.body T setup) s s') :
    s.dir.RemotesStep s'.dir :=
  step.of_steps (steps_remotes setup)

theorem indexed_of_reached (indexed : s₀.dir.Indexed)
    (before : ReflTransGen (Stepped (Call.body T setup)) s₀ s) : s.dir.Indexed :=
  (stable_indexed fun _ _ => table_of_stepped setup).later before indexed

/-- In every state that calls lead to, and amid whatever other calls do: handling a
notice clears the flags of exactly the entries it is about and does nothing else;
and what is gone is refused until it is imported again. -/
theorem invalidation_is_exact (indexed : s₀.dir.Indexed)
    (before : ReflTransGen (Stepped (Call.body T setup)) s₀ s) :
    (∀ t prov m b l s', m.type = ControlType.regionInvalidate.code →
      decodeRegionInvalidate m.payload = .ok b →
      Amid (Stepped (Call.body T setup)) t (handleControl setup prov m) s l () s' →
      ∃ s₁ s₂ peer, (s₁, s₁) ∈ l ∧ s₂.dir.Owns m.conn peer ∧ (m.conn ≠ none → (s₂, s₂) ∈ l) ∧
        Withdraws peer b l s₁ s') ∧
    ∀ t peer region caps chunkBytes loc remote kind q (lanes : List (Lane W)) l r s',
      s.dir.Gone peer region →
      (∃ x ∈ loc.zip remote, x.2.region = region) →
      Amid (Keeping setup peer region) t
        (buildSubops lookup caps chunkBytes peer loc remote kind q lanes) s l r s' →
      ∃ st, st ≠ .ok ∧ r = .error st := by
  have indexed := indexed_of_reached setup indexed before
  constructor
  · intro t prov m b l s' notice decoded amid
    obtain ⟨s₁, s₂, peer, -, -, looked, owns, seen, withdraws⟩ :=
      amid_handleControl (fun _ _ => table_of_stepped setup) setup notice decoded indexed amid
    exact ⟨s₁, s₂, peer, looked, owns, seen, withdraws⟩
  · intro t peer region caps chunkBytes loc remote kind q lanes l r s' gone names amid
    exact amid_buildSubops (fun _ _ step => table_of_stepped setup step.1) (fun _ _ step => step.2)
      ⟨indexed, gone⟩ names amid

namespace Pair

/-- A program run alone, with what it shows of its end. -/
theorem performs {α : Type} {p : Engine transport ℚ α} {s : World transport ℚ}
    (R : World transport ℚ → World transport ℚ → Prop) (P : α → World transport ℚ → Prop)
    [∀ a s, Decidable (P a s)]
    (shown : ((p.perform [.nothing, .transport .nothing] 0 s).any fun x =>
      decide (P x.1 x.2)) = true) :
    ∃ l a s', Amid R 0 p s l a s' ∧ P a s' := by
  obtain ⟨a, s', alone, shown⟩ := Interleave.Prog.alone_of_perform _ P shown
  obtain ⟨l, amid⟩ := alone.amid (R := R)
  exact ⟨l, a, s', amid, shown⟩

/-- The peer's eight bytes are gone. -/
def notice : ControlMessage :=
  { type := ControlType.regionInvalidate.code
    payload := encodeRegionInvalidate ⟨1, 1, some ⟨1, 1, 2⟩⟩
    conn := none }

def first : World transport ℚ := World.start directory state

theorem indexed_first : first.dir.Indexed := by
  refine ⟨List.pairwise_singleton _ _, ?_, ?_⟩
  · simp [first, World.start, directory]
  · simp [first, World.start, directory]

/-- As after the notice. -/
def bereft : World transport ℚ := { first with dir := first.dir.invalidate 0 }

theorem indexed_bereft : bereft.dir.Indexed := indexed_first.step (.cleared 0 rfl)

end Pair

/-- The notice that the eight bytes are gone, and a transfer once they are. -/
theorem invalidation_is_exact_pair :
    (∃ l s' s₁ peer, Amid (Stepped (Call.body Pair.transport Pair.setup)) 0
        (handleControl Pair.setup 0 Pair.notice) Pair.first l () s' ∧
      Withdraws peer ⟨1, 1, some ⟨1, 1, 2⟩⟩ l s₁ s') ∧
    ∃ l r s' st, Amid (Keeping Pair.setup 1 1) 0
        (buildSubops lookup Pair.setup.caps 4 1 [⟨1, ⟨0, 8⟩⟩] [⟨1, ⟨0, 8⟩⟩] .write 1
          [(⟨0, some 0, 1⟩ : Lane ℚ)])
        Pair.bereft l r s' ∧
      st ≠ .ok ∧ r = .error st := by
  constructor
  · obtain ⟨l, u, s', amid, -⟩ := Pair.performs (p := handleControl Pair.setup 0 Pair.notice)
      (s := Pair.first)
      (Stepped (Call.body Pair.transport Pair.setup)) (fun _ _ => True) (by decide +kernel)
    obtain ⟨s₁, s₂, peer, -, -, -, withdraws⟩ := (invalidation_is_exact Pair.setup
      Pair.indexed_first .refl).1 0 0 Pair.notice ⟨1, 1, some ⟨1, 1, 2⟩⟩ l s' rfl
        (by decide +kernel) amid
    exact ⟨l, s', s₁, peer, amid, withdraws⟩
  · obtain ⟨l, r, s', amid, -⟩ := Pair.performs
      (p := buildSubops lookup Pair.setup.caps 4 1 [⟨1, ⟨0, 8⟩⟩] [⟨1, ⟨0, 8⟩⟩] .write 1
        [(⟨0, some 0, 1⟩ : Lane ℚ)])
      (s := Pair.bereft)
      (Keeping Pair.setup 1 1) (fun _ _ => True) (by decide +kernel)
    obtain ⟨st, bad, refused⟩ := (invalidation_is_exact Pair.setup
      Pair.indexed_bereft .refl).2 0 1 1 _ _ _ _ _ _ _ l r s'
      (by simp [Directory.Gone, Directory.invalidate, World.start, Pair.bereft, Pair.first,
        Pair.directory])
      ⟨_, List.mem_cons_self, rfl⟩ amid
    exact ⟨l, r, s', st, amid, bad, refused⟩

/-- Once a notice that carries its origin is handled, and unless the region is
imported again from then on, no transfer that begins afterwards and names it is
admitted. -/
theorem withdrawn_region_is_refused (indexed : s₀.dir.Indexed)
    (before : ReflTransGen (Stepped (Call.body T setup)) s₀ s) (t u : Tid) (prov : ProviderId)
    (m : ControlMessage) (peer : PeerId) (region : RegionId) (generation : Generation)
    (origin : Identity) (notice : m.type = ControlType.regionInvalidate.code)
    (decoded : decodeRegionInvalidate m.payload = .ok ⟨region, generation, some origin⟩)
    (imported : ∀ o, ((peer, region), o) ∈ s.dir.remotes →
      (s.dir.remoteObjects o).desc.origin = origin ∧
        (s.dir.remoteObjects o).desc.generation = generation)
    (l l' : List (World T W × World T W)) (s' s'' : World T W)
    (handled : Amid (Keeping setup peer region) t (handleControl setup prov m) s l () s')
    (c : Call) (loc remote : List RegionView) (opts : TransferOptions) (kind : SubOpKind)
    (transfers : c.transfer = some (peer, loc, remote, opts, kind))
    (names : ∃ v ∈ remote, v.region = region) (reply : Reply)
    (called : Amid (Keeping setup peer region) u (c.body T setup) s' l' reply s'') :
    ∃ st, st ≠ .ok ∧ reply = .request st none := by
  have table : ∀ s s' : World T W, Keeping setup peer region s s' → s.dir.RemotesStep s'.dir :=
    fun _ _ step => table_of_stepped setup step.1
  have unmoved : ∀ s s' : World T W, Keeping setup peer region s s' →
      s.dir.Unmoved peer region s'.dir := fun _ _ step => step.2
  have indexed := indexed_of_reached setup indexed before
  obtain ⟨s₁, _, who, reached, -, -, -, -, withdraws⟩ :=
    amid_handleControl table setup notice decoded indexed handled
  have same (x : World T W × World T W) (hx : x ∈ l) : x.1.dir.RemotesStep x.2.dir ∧
      x.2.dir.remotes = x.1.dir.remotes := by
    rcases withdraws.steps x hx with same | ⟨y, -, -, wrote⟩
    · rw [same]
      exact ⟨.same rfl rfl rfl, rfl⟩
    · rw [wrote]
      exact ⟨.cleared y.2 rfl, rfl⟩
  have ordered : s'.dir.Indexed := handled.along (stable_indexed table)
    (fun x hx known => known.step (same x hx).1) indexed
  -- the entry is the one that the handler found
  have still : Stable (Keeping setup peer region) fun w : World T W =>
      s.dir.Unmoved peer region w.dir := by
    intro w w' step known o
    exact (step.2 o).trans (known o)
  have entry₁ : s.dir.Unmoved peer region s₁.dir := still.later reached fun _ => .rfl
  have entry' : s.dir.Unmoved peer region s'.dir := handled.along still
    (fun x hx known o => by rw [(same x hx).2]; exact known o) fun _ => .rfl
  have gone : s'.dir.Gone peer region := by
    intro o ho
    have here := (entry' o).mp ho
    have desc := (later_of_reached table reached).desc o (indexed.objects _ here)
    refine withdraws.named _ ((entry₁ o).mpr here) ⟨rfl, ?_, ?_⟩
    · exact desc ▸ (imported o here).2
    · exact desc ▸ (imported o here).1
  have refused (amid : Amid (Keeping setup peer region) u
      (submitVector setup peer loc remote opts kind) s' l' reply s'') :=
    amid_submitVector table unmoved setup ⟨ordered, gone⟩ names amid
  cases c with
  | read | write | readv | writev =>
    cases transfers
    exact refused called
  | _ => cases transfers

/-- A write of the eight bytes after the notice. -/
theorem withdrawn_region_is_refused_pair :
    ∃ l s' l' reply s'' st, Amid (Keeping Pair.setup 1 1) 0
        (handleControl Pair.setup 0 Pair.notice) Pair.first l () s' ∧
      Amid (Keeping Pair.setup 1 1) 0 ((Pair.write []).body Pair.transport Pair.setup) s' l' reply
        s'' ∧ st ≠ .ok ∧ reply = .request st none := by
  obtain ⟨l, u, s', handled, ready⟩ := Pair.performs
    (p := handleControl Pair.setup 0 Pair.notice) (s := Pair.first) (Keeping Pair.setup 1 1)
    (fun _ s => (((Pair.write []).body Pair.transport Pair.setup).perform
      [.nothing, .transport .nothing] 0 s).isSome = true) (by decide +kernel)
  obtain ⟨l', reply, s'', called, -⟩ := Pair.performs
    (p := (Pair.write []).body Pair.transport Pair.setup) (s := s') (Keeping Pair.setup 1 1)
    (fun _ _ => True) (by simpa [Option.isSome_iff_exists, Option.any_eq_true] using ready)
  obtain ⟨st, bad, refused⟩ := withdrawn_region_is_refused Pair.setup Pair.indexed_first .refl
    0 0 0 Pair.notice 1 1 1 ⟨1, 1, 2⟩ rfl (by decide +kernel)
    (by simp [Pair.first, World.start, Pair.directory, Pair.there]) l l' s' s'' handled
      (Pair.write [])
    _ _ _ _ rfl ⟨_, List.mem_cons_self, rfl⟩ reply called
  exact ⟨l, s', l', reply, s'', st, handled, called, bad, refused⟩

/-- The notice is handled, the same descriptor is imported again, and a write of the
eight bytes is admitted. -/
theorem withdrawn_region_is_admitted :
    ∃ p p', Pair.Runs (fun _ _ => true = true) p ∧
      Interleave.Onward (Call.body Pair.transport Pair.setup) (fun _ _ => true = true) p p' ∧
      (p.returned 1).isSome = true ∧ (p.shared.dir.remoteObjects 0).valid = false ∧
      p'.returned 2 = some (.importRegion 1 (encodeDescriptor Pair.there),
        .remote .ok (some 1)) ∧
      p'.returned 3 = some (Pair.write [], .request .ok (some (.transfer 1))) := by
  exact Interleave.Run.of_enacts _ _ _
    [([.nothing, .transport (.deliver 0 Pair.notice), .order [], .order [1]],
      [.spawn .transportStep, .run 0 1, .spawn .progress, .run 1 11])]
    [([.nothing, .transport .nothing, .order [], .order [1]],
      [.spawn (.importRegion 1 (encodeDescriptor Pair.there)), .run 2 2,
        .spawn (Pair.write []), .run 3 21])]
    _ (by decide +kernel)

end

/-! ## Ready handoffs -/

/-- A region is held under that number and generation, and the span lies within it. -/
def Directory.Holds {W : Type} (d : Directory W) (id : RegionId) (gen : Generation) (span : Span) :
    Prop :=
  ∃ r, d.findRegion id = some r ∧ r.generation = gen ∧ span.within r.length = true

/-- Whatever states its steps find, the handling of a handoff queues no event but of memory
that is held, just when the payload is not one, or the queue is full, or the memory it names
is held when the event gets to the queue. -/
theorem ready_events_are_held_iff {T : Transport} {W : Type} {t : Tid} (setup : Setup W)
    (peer : PeerId) (payload : Bytes) (l : List (World T W × World T W))
    (took : Took t (handleReadyHandoff setup peer payload) l ()) :
    (∀ x ∈ l, ∀ ev, x.2.readyEvents = x.1.readyEvents ++ [ev] →
        x.2.dir.Holds ev.region ev.generation ev.span) ↔
      ∀ b, decodeReadyHandoff payload = .ok b → ∀ x ∈ l.getLast?,
        setup.cfg.readyQueueDepth ≤ x.1.readyEvents.length ∨
          x.1.dir.Holds b.region b.generation ⟨b.offset, b.length⟩ := by
  unfold handleReadyHandoff at took
  split at took
  · rename_i bad
    cases took
    simp [bad]
  rename_i b good
  -- the lookup, the counter, and the queue
  obtain ⟨⟩ | ⟨found, ⟨⟩ | ⟨counted, ⟨⟩ | ⟨queued, ⟨⟩⟩⟩⟩ := took
  cases found
  cases counted
  cases queued
  rename_i s₁ _ s₂ _ s₃ _
  by_cases full : setup.cfg.readyQueueDepth ≤ s₃.readyEvents.length
  · simp [good, keepReady, full]
  · simp [good, keepReady, full]

/-- Eight bytes of a region are handed over. -/
def Pair.handoff (region : RegionId) : Bytes := encodeReadyHandoff ⟨5, region, 1, 0, 8⟩

theorem ready_events_are_held_iff_pair :
    ∃ l : List (World Pair.transport ℚ × World Pair.transport ℚ),
      Took 0 (handleReadyHandoff Pair.setup 1 (Pair.handoff 1)) l () ∧
      ∀ x ∈ l, ∀ ev, x.2.readyEvents = x.1.readyEvents ++ [ev] →
        x.2.dir.Holds ev.region ev.generation ev.span := by
  have took : Took 0 (handleReadyHandoff Pair.setup 1 (Pair.handoff 1)) _ () :=
    .atom (s := Pair.first) (e := .nothing) rfl (.atom (s := Pair.first) (e := .nothing) rfl
      (.atom (s := Pair.first) (e := .nothing) rfl (.ret ())))
  refine ⟨_, took, (ready_events_are_held_iff _ _ _ _ took).mpr ?_⟩
  intro b read x last
  cases read
  cases last
  exact .inr ⟨Pair.here, rfl, rfl, rfl⟩

/-- A handoff of a region that there is none of is queued. -/
theorem event_of_no_region :
    ∃ p, Pair.Runs (fun _ _ => true = true) p ∧ p.shared.dir.findRegion 7 = none ∧
      p.shared.readyEvents = [⟨5, 0, none, 8, 7, 1, ⟨0, 8⟩⟩] := by
  exact Pair.run_of_play (.deliver 0 ⟨0, ControlType.readyHandoff.code, Pair.handoff 7, none⟩)
    [.spawn .transportStep, .run 0 1, .spawn .progress, .run 1 11] (by decide +kernel)

end Hux
