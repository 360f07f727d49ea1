import Hux.Effects

/-!
# The tables, one input at a time

What peers and the application bring to an engine, when nothing else happens at
the same time: `Directory.after` is what each input makes of the tables, as a
function, and `History.tables` that the engine's programs compute just that. How
a dial goes is the network's business: `dial` says how the one for each
connection went.
-/

namespace Hux
open Interleave (Tid Alone Steps alone_ret alone_atom alone_bind)
open Wire (Bytes)

section
variable {T : Transport} {W : Type} {α β : Type} {t : Tid} {s s' : World T W}

/-! ## Atoms -/

variable {a : α}

@[simp] theorem alone_look {f : World T W → α} : Alone t (look f) s a s' ↔ a = f s ∧ s' = s := by
  simp only [look, alone_atom, alone_ret, Option.some.injEq, Prod.mk.injEq]
  constructor
  · rintro ⟨-, _, _, ⟨rfl, rfl⟩, rfl, rfl⟩
    exact ⟨rfl, rfl⟩
  · rintro ⟨rfl, rfl⟩
    exact ⟨.nothing, _, _, ⟨rfl, rfl⟩, rfl, rfl⟩

/-- What follows a program that only reads. -/
theorem alone_read_bind {p : Engine T W α} {g : α → Engine T W β} {x : α} {b : β}
    (read : ∀ a s₁, Alone t p s a s₁ ↔ a = x ∧ s₁ = s) :
    Alone t (p >>= g) s b s' ↔ Alone t (g x) s b s' := by
  simp only [alone_bind, read]
  exact ⟨fun ⟨_, _, ⟨ha, hs⟩, h⟩ => ha ▸ hs ▸ h, fun h => ⟨_, _, ⟨rfl, rfl⟩, h⟩⟩

theorem alone_look_bind {f : World T W → α} {g : α → Engine T W β} {b : β} :
    Alone t (look f >>= g) s b s' ↔ Alone t (g (f s)) s b s' :=
  alone_read_bind fun _ _ => alone_look

@[simp] theorem alone_exchange {f : World T W → α × World T W} :
    Alone t (exchange f) s a s' ↔
      a = (f s).1 ∧ s' = { (f s).2 with ledger := s.ledger, transport := s.transport } := by
  simp only [exchange, alone_atom, alone_ret, Option.some.injEq, Prod.mk.injEq]
  constructor
  · rintro ⟨-, _, _, ⟨rfl, rfl⟩, rfl, rfl⟩
    exact ⟨rfl, rfl⟩
  · rintro ⟨rfl, rfl⟩
    exact ⟨.nothing, _, _, ⟨rfl, rfl⟩, rfl, rfl⟩

@[simp] theorem alone_update {f : World T W → World T W} {a : Unit} :
    Alone t (update f) s a s' ↔
      s' = { f s with ledger := s.ledger, transport := s.transport } := by
  simp [update]

@[simp] theorem alone_walk {f : World T W → List Nat} {l : List Nat} :
    Alone t (walk f) s l s' ↔ l.Perm (f s) ∧ s' = s := by
  simp only [walk, alone_atom, alone_ret]
  constructor
  · rintro ⟨e, _, _, step, rfl, rfl⟩
    split at step
    · split at step
      · cases step
        exact ⟨‹_›, rfl⟩
      · cases step
    · cases step
  · rintro ⟨perm, rfl⟩
    exact ⟨.order l, _, _, by simp [perm], rfl, rfl⟩

/-- What `build_subops` looks things up in. -/
def World.tables (s : World T W) : Directory W × (RegionId → Bool) := (s.dir, s.ledger.retired)

/-- How the dials of a transport go. -/
def Dials (T : Transport) (dial : ConnId → Status) : Prop :=
  ∀ prov c blob σ a r σ', T.connect prov c blob σ a = some (r, σ') → r = dial c

variable {dial : ConnId → Status}

theorem alone_connect (dials : Dials T dial) {prov : ProviderId} {blob : Bytes}
    {r : Status × ConnId} (run : Alone t (connect prov blob) s r s') :
    r = (dial s.dir.nextConn, s.dir.nextConn) ∧
      s'.tables = ({ s.dir with nextConn := s.dir.nextConn + 1 }, s.ledger.retired) := by
  obtain ⟨e, b, s₁, step, rest⟩ := alone_atom.mp run
  obtain ⟨rfl, rfl⟩ := alone_ret.mp rest
  split at step
  · obtain ⟨⟨status, σ⟩, answer, h⟩ := Option.map_eq_some_iff.mp step
    cases h
    rw [dials _ _ _ _ _ _ _ answer]
    exact ⟨rfl, rfl⟩
  · cases step

variable (setup : Setup W)

/-! ## What each input makes of the tables -/

namespace Directory
variable (dial : ConnId → Status)

/-- The lanes over the dials that went well, the first for connection `c`. -/
def siblingLanes : List (ProviderId × Bytes) → ConnId → List (Lane W)
  | [], _ => []
  | (prov, _) :: rest, c =>
    if dial c = .ok then
      ⟨prov, some c, setup.relativeCapacity prov⟩ :: siblingLanes rest (c + 1)
    else siblingLanes rest (c + 1)

def metPeer (metadata : Bytes) (d : Directory W) : Directory W :=
  match readMetadata setup.identity metadata with
  | .error _ => d
  | .ok m =>
    match chooseProvider setup m with
    | none => d
    | some (chosen, _) =>
      if dial d.nextConn = .ok then
        let others := siblings setup m chosen
        let lanes := ⟨chosen, some d.nextConn, setup.relativeCapacity chosen⟩ ::
          siblingLanes setup dial others (d.nextConn + 1)
        { d with
          nextConn := d.nextConn + 1 + others.length
          nextPeer := d.nextPeer + 1 }.addPeer d.nextPeer ⟨m.identity, lanes⟩
      else { d with nextConn := d.nextConn + 1 }

/-- The descriptor an import keeps, if it is not refused. -/
def accepts (d : Directory W) (peer : PeerId) (descriptor : Bytes) : Option RegionDescriptor :=
  match decodeDescriptor descriptor with
  | .error _ => none
  | .ok desc => (importable setup.caps (d.peerObjects peer) desc).toOption

def imported (peer : PeerId) (descriptor : Bytes) (d : Directory W) : Directory W :=
  match d.accepts setup peer descriptor with
  | some desc => (d.importRegion peer desc).2
  | none => d

def peerOf (d : Directory W) : Option ConnId → PeerId
  | none => 0
  | some c => (d.peers.filter (d.hasConn c)).headD 0

/-- Objects whose generation is the notice's become invalid. -/
def invalidated (generation : Generation) (named : List RemoteId) (d : Directory W) : Directory W :=
  named.foldl (fun d obj =>
    if (d.remoteObjects obj).desc.generation = generation then d.invalidate obj else d) d

def noticed (conn : Option ConnId) (payload : Bytes) (d : Directory W) : Directory W :=
  match decodeRegionInvalidate payload with
  | .error _ => d
  | .ok b => d.invalidated b.generation (d.named (d.peerOf conn) b)

end Directory

theorem alone_connectSiblings (dials : Dials T dial) {others : List (ProviderId × Bytes)}
    {lanes : List (Lane W)} (run : Alone t (connectSiblings setup others) s lanes s') :
    lanes = Directory.siblingLanes setup dial others s.dir.nextConn ∧
      s'.tables = ({ s.dir with nextConn := s.dir.nextConn + others.length },
        s.ledger.retired) := by
  induction others generalizing s s' lanes with
  | nil =>
    obtain ⟨rfl, rfl⟩ := alone_ret.mp run
    exact ⟨rfl, rfl⟩
  | cons offer rest ih =>
    obtain ⟨⟨status, c⟩, s₁, first, more⟩ := alone_bind.mp run
    obtain ⟨others, s₂, second, last⟩ := alone_bind.mp more
    obtain ⟨⟨⟩, tables₁⟩ := alone_connect dials first
    obtain ⟨rfl, tables₂⟩ := ih second
    obtain ⟨rfl, rfl⟩ := alone_ret.mp last
    obtain ⟨dir₁, retired₁⟩ := Prod.mk.inj tables₁
    refine ⟨?_, tables₂.trans ?_⟩
    · simp [Directory.siblingLanes, dir₁]
    · simp [dir₁, retired₁, Nat.add_comm, Nat.add_left_comm]

variable {r : Reply}

theorem alone_addPeer (dials : Dials T dial) {metadata : Bytes}
    (run : Alone t (addPeer setup metadata) s r s') :
    s'.tables = (s.dir.metPeer setup dial metadata, s.ledger.retired) := by
  unfold addPeer at run
  unfold Directory.metPeer
  cases read : readMetadata setup.identity metadata with
  | error refused =>
    simp only [read] at run
    obtain ⟨rfl, rfl⟩ := alone_ret.mp run
    rfl
  | ok m =>
    simp only [read] at run
    dsimp only
    cases choice : chooseProvider setup m with
    | none =>
      simp only [choice] at run
      obtain ⟨rfl, rfl⟩ := alone_ret.mp run
      rfl
    | some found =>
      obtain ⟨chosen, blob⟩ := found
      simp only [choice] at run
      obtain ⟨⟨status, c⟩, s₁, first, run⟩ := alone_bind.mp run
      obtain ⟨⟨⟩, tables₁⟩ := alone_connect dials first
      obtain ⟨dir₁, retired₁⟩ := Prod.mk.inj tables₁
      dsimp only at run ⊢
      by_cases answered : dial s.dir.nextConn = .ok
      · rw [if_neg (not_not.mpr answered)] at run
        obtain ⟨others, s₂, second, run⟩ := alone_bind.mp run
        obtain ⟨rfl, tables₂⟩ := alone_connectSiblings setup dials second
        obtain ⟨dir₂, retired₂⟩ := Prod.mk.inj tables₂
        obtain ⟨id, s₃, numbered, run⟩ := alone_bind.mp run
        obtain ⟨rfl, rfl⟩ := alone_exchange.mp numbered
        obtain ⟨u, s₄, added, run⟩ := alone_bind.mp run
        obtain rfl := alone_update.mp added
        obtain ⟨rfl, rfl⟩ := alone_ret.mp run
        simp [World.tables, Directory.addPeer, dir₂, dir₁, retired₂, retired₁, answered]
      · rw [if_pos answered] at run
        obtain ⟨rfl, rfl⟩ := alone_ret.mp run
        simpa [answered] using tables₁

theorem alone_invalidateLoop {generation : Generation} {named : List RemoteId} {u : Unit}
    (run : Alone t (invalidateLoop generation named) s u s') :
    s'.tables = (s.dir.invalidated generation named, s.ledger.retired) := by
  induction named generalizing s s' with
  | nil =>
    obtain ⟨-, rfl⟩ := alone_ret.mp run
    rfl
  | cons obj rest ih =>
    replace run := alone_look_bind.mp run
    simp only [Directory.invalidated, List.foldl_cons]
    split at run
    · rename_i same
      obtain ⟨u, s₁, now, run⟩ := alone_bind.mp run
      obtain rfl := alone_update.mp now
      rw [if_pos same]
      exact ih run
    · rename_i other
      rw [if_neg other]
      exact ih run

variable {peer : PeerId}

theorem alone_importRegion {descriptor : Bytes}
    (run : Alone t (importRegion setup peer descriptor) s r s') :
    s'.tables = (s.dir.imported setup peer descriptor, s.ledger.retired) ∧
      ((∃ obj, r = .remote .ok (some obj)) ↔ (s.dir.accepts setup peer descriptor).isSome) := by
  unfold importRegion at run
  split at run
  · rename_i refused
    obtain ⟨rfl, rfl⟩ := alone_ret.mp run
    simp [World.tables, Directory.imported, Directory.accepts, refused]
  rename_i desc decoded
  replace run := alone_look_bind.mp run
  split at run
  · rename_i refused
    obtain ⟨rfl, rfl⟩ := alone_ret.mp run
    simp [World.tables, Directory.imported, Directory.accepts, decoded, refused, Except.toOption]
  · rename_i kept importable
    obtain ⟨obj, s₁, entered, run⟩ := alone_bind.mp run
    obtain ⟨rfl, rfl⟩ := alone_exchange.mp entered
    obtain ⟨rfl, rfl⟩ := alone_ret.mp run
    simp [World.tables, Directory.imported, Directory.accepts, decoded, importable, Except.toOption]

/-- While no two peers share a connection, the order of the walk does not matter. -/
theorem alone_peerForConn (single : ∀ c, (s.dir.peers.filter (s.dir.hasConn c)).length ≤ 1)
    {conn : Option ConnId} :
    Alone t (peerForConn conn) s peer s' ↔ peer = s.dir.peerOf conn ∧ s' = s := by
  cases conn with
  | none => exact alone_ret
  | some c =>
    have one (l : List PeerId) : l.Perm (s.dir.peers.filter (s.dir.hasConn c)) ↔
        l = s.dir.peers.filter (s.dir.hasConn c) := by
      refine ⟨fun perm => ?_, fun same => same ▸ .refl _⟩
      match h : s.dir.peers.filter (s.dir.hasConn c), single c with
      | [], _ => exact (h ▸ perm).eq_nil
      | [p], _ => exact List.perm_singleton.mp (h ▸ perm)
    refine (alone_read_bind fun l s₁ => ?_).trans alone_ret
    rw [alone_walk, one]

/-! ## Lookups -/

variable [LaneCost W]

/-- A submission leaves the tables alone. -/
theorem tables_submitVector (peer : PeerId) (loc remote : List RegionView)
    (opts : TransferOptions) (kind : SubOpKind) :
    Steps (fun s s' : World T W => s'.tables = s.tables)
      (submitVector setup peer loc remote opts kind : Engine T W Reply) := by
  have effects : Effects T W {.leave, .post, .clear, .pending, .doubt, .enter, .number}
      (submitVector setup peer loc remote opts kind : Engine T W Reply) := by
    apply effects_submitVector <;> simp
  refine effects.mono ?_
  rintro s s' (plain | ⟨k, kind, effect⟩)
  · simp only [World.tables, plain.same.dir, plain.ledger.retired]
  · cases effect <;> first | rfl | simp at kind

/-- How a caller alone with the engine finds things. -/
def World.lookup (s : World T W) : Lookup Id where
  findRegion := s.dir.findRegion
  retired := s.ledger.retired
  findRemote := s.dir.findRemote
  valid obj := (s.dir.remoteObjects obj).valid

/-- Two lookups that find the same for one peer, under whatever names. -/
structure Lookup.Agree (peer : PeerId) (look look' : Lookup Id) : Prop where
  findRegion : look'.findRegion = look.findRegion
  retired : look'.retired = look.retired
  found : ∀ region, ((look'.findRemote peer region).run.map fun x => (x.2, (look'.valid x.1).run)) =
    (look.findRemote peer region).run.map fun x => (x.2, (look.valid x.1).run)

section
variable {look : Lookup Id} (agree : look.Agree peer s.lookup)
include agree

theorem alone_buildLoop {g : Plan W} {loc remote : List RegionView} {b : Build W}
    {r : Except Status (Build W)} :
    Alone t (buildLoop lookup g peer loc remote b) s r s' ↔
      r = (buildLoop look g peer loc remote b).run ∧ s' = s := by
  induction loc generalizing remote b with
  | nil => exact alone_ret
  | cons l ls ih =>
    obtain - | ⟨rv, rs⟩ := remote
    · exact alone_ret
    simp only [buildLoop, Id.run_bind, ← agree.findRegion, ← agree.retired]
    refine alone_look_bind.trans ?_
    rw [show (s.lookup.findRegion l.region).run = s.dir.findRegion l.region from rfl]
    cases s.dir.findRegion l.region with
    | none => exact alone_ret
    | some lr =>
      refine alone_look_bind.trans ?_
      simp only [Id.run_bind, show (s.lookup.retired lr.id).run = s.ledger.retired lr.id from rfl]
      cases s.ledger.retired lr.id with
      | true => exact alone_ret
      | false =>
        simp only [Bool.false_eq_true, if_false, Id.run_bind]
        refine alone_look_bind.trans ?_
        -- the object may have another name, but not another descriptor or flag
        have same := agree.found rv.region
        rw [show (s.lookup.findRemote peer rv.region).run = s.dir.findRemote peer rv.region
          from rfl] at same
        cases found : s.dir.findRemote peer rv.region with
        | none =>
          rw [found] at same
          rw [Option.map_eq_none_iff.mp same.symm]
          exact alone_ret
        | some imported =>
          rw [found] at same
          obtain ⟨x, found', eq⟩ := Option.map_eq_some_iff.mp same.symm
          obtain ⟨desc, valid⟩ := Prod.mk.inj eq
          refine alone_look_bind.trans ?_
          simp only [found', Id.run_bind, desc, valid,
            show (s.lookup.valid imported.1).run = (s.dir.remoteObjects imported.1).valid from rfl]
          cases (s.dir.remoteObjects imported.1).valid with
          | false => exact alone_ret
          | true =>
            simp only [if_true]
            cases splitSegment g ⟨lr, imported.2, l.span, rv.span⟩ b with
            | error s => exact alone_ret
            | ok b' => exact ih

theorem alone_buildSubops {caps : ProviderId → ProviderCaps} {chunkBytes : Nat}
    {loc remote : List RegionView} {kind : SubOpKind} {req : RequestId} {lanes : List (Lane W)}
    {r : Except Status Built} :
    Alone t (buildSubops lookup caps chunkBytes peer loc remote kind req lanes) s r s' ↔
      r = (buildSubops look caps chunkBytes peer loc remote kind req lanes).run ∧ s' = s := by
  by_cases laneless : lanes.isEmpty
  · simp only [buildSubops, laneless, if_true]
    exact alone_ret
  simp only [buildSubops, laneless, Bool.false_eq_true, if_false, Id.run_bind]
  refine (alone_read_bind fun _ _ => alone_buildLoop agree).trans ?_
  cases (buildLoop look ⟨kind, req, lanes, caps, effectiveChunk caps lanes chunkBytes⟩ peer
      loc remote (Build.start lanes)).run with
  | error s => exact alone_ret
  | ok b =>
    cases loc with
    | nil => exact alone_ret
    | cons l ls =>
      simp only [Id.run_bind, ← agree.findRegion]
      refine alone_look_bind.trans ?_
      rw [show (s.lookup.findRegion l.region).run = s.dir.findRegion l.region from rfl]
      cases s.dir.findRegion l.region <;> exact alone_ret

end

/-- What comes from outside, one at a time. -/
inductive Input
  | addPeer (metadata : Bytes)
  | importRegion (peer : PeerId) (descriptor : Bytes)
  /-- A `kRegionInvalidate` message, received on a connection. -/
  | notice (prov : ProviderId) (conn : Option ConnId) (payload : Bytes)
  | submit (peer : PeerId) (loc remote : List RegionView) (opts : TransferOptions)
      (kind : SubOpKind)
  deriving DecidableEq

def Input.body : Input → Engine T W Reply
  | .addPeer m => Hux.addPeer setup m
  | .importRegion p b => Hux.importRegion setup p b
  | .notice prov conn payload => do
    handleControl setup prov { type := ControlType.regionInvalidate.code, payload, conn }
    return .status .ok
  | .submit p l r o k => submitVector setup p l r o k

/-- Descriptors are imported into peers that were added. -/
def Input.Valid (d : Directory W) : Input → Prop
  | .importRegion p _ => p ∈ d.peers
  | _ => True

/-- The tables after an input. -/
def Directory.after (dial : ConnId → Status) (d : Directory W) : Input → Directory W
  | .addPeer m => d.metPeer setup dial m
  | .importRegion p b => d.imported setup p b
  | .notice _ conn payload => d.noticed conn payload
  | .submit _ _ _ _ _ => d

/-- The engine after a series of inputs, newest first, each with what the call
returned. -/
inductive History (s₀ : World T W) : List (Input × Reply) → World T W → Prop
  | start : History s₀ [] s₀
  | next {h : List (Input × Reply)} {s s' : World T W} {i : Input} {r : Reply} (t : Tid) :
      History s₀ h s → i.Valid s.dir → Alone t (i.body setup) s r s' →
      History s₀ ((i, r) :: h) s'

theorem alone_notice {prov : ProviderId} {conn : Option ConnId} {payload : Bytes}
    (single : ∀ c, (s.dir.peers.filter (s.dir.hasConn c)).length ≤ 1)
    (run : Alone t ((Input.notice prov conn payload).body setup) s r s') :
    s'.tables = (s.dir.noticed conn payload, s.ledger.retired) := by
  obtain ⟨u, s₁, handled, run⟩ := alone_bind.mp run
  obtain ⟨-, rfl⟩ := alone_ret.mp run
  replace handled := (alone_read_bind fun _ _ => alone_peerForConn single).mp handled
  have other : ControlType.regionInvalidate.code ≠ ControlType.readyHandoff.code ∧
    ControlType.regionInvalidate.code ≠ ControlType.notification.code := by decide
  simp only [other.1, other.2, if_false, if_true, handleRegionInvalidate] at handled
  unfold Directory.noticed
  cases decoded : decodeRegionInvalidate payload with
  | error =>
    simp only [decoded] at handled
    obtain ⟨-, rfl⟩ := alone_ret.mp handled
    rfl
  | ok b =>
    simp only [decoded] at handled
    exact alone_invalidateLoop (alone_look_bind.mp handled)

/-- An input, handled alone, does to the tables what `Directory.after` says. -/
theorem alone_input (dials : Dials T dial)
    (single : ∀ c, (s.dir.peers.filter (s.dir.hasConn c)).length ≤ 1) {i : Input}
    (run : Alone t (i.body setup) s r s') :
    s'.tables = (s.dir.after setup dial i, s.ledger.retired) := by
  cases i with
  | addPeer m => exact alone_addPeer setup dials run
  | importRegion p b => exact (alone_importRegion setup run).1
  | notice prov conn payload => exact alone_notice setup single run
  | submit p l r o k => exact (tables_submitVector setup p l r o k).alone run

end

end Hux
