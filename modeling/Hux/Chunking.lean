import Mathlib.Algebra.Order.Ring.Rat
import Hux.Region

/-!
# Splitting a transfer over lanes

`EngineImpl::build_subops`. The lookups go through a `Lookup` in any monad, so
that one definition serves a caller alone with the engine and a thread that
takes the engine's lock once per lookup.

* `splitSegment`: the checks of one pair of segments, and its chunks;
* `Tiles`: consecutive pieces that cover every byte of every segment;
* `splitSegments_tiles`: what `splitSegments` hands out tiles the segments.
-/

namespace Hux
open Wire (Bytes)

/-! ## Lanes -/

/-- The arithmetic `build_subops` does in `double`. -/
class LaneCost (W : Type) where
  zero : W
  /-- What stands in for a weight that is not positive, `1e-9`. -/
  tiny : W
  ofBytes : Nat → W
  add : W → W → W
  div : W → W → W
  lt : W → W → Bool

instance : LaneCost ℚ where
  zero := 0
  tiny := 1 / 1000000000
  ofBytes n := n
  add := (· + ·)
  div := (· / ·)
  lt a b := decide (a < b)

structure ProviderCaps where
  name : Bytes
  /-- 0 if unbounded. -/
  maxSegmentBytes : Nat
  deriving DecidableEq, Repr

/-- One way of reaching a peer. -/
structure Lane (W : Type) where
  provider : ProviderId
  conn : Option ConnId
  weight : W

variable {W : Type}

/-- No chunk is longer than any lane can carry in one operation. -/
def effectiveChunk (caps : ProviderId → ProviderCaps) (lanes : List (Lane W))
    (chunkBytes : Nat) : Nat :=
  lanes.foldl (fun chunk l =>
    let most := (caps l.provider).maxSegmentBytes
    if 0 < most ∧ most < chunk then most else chunk) chunkBytes

theorem effectiveChunk_le (caps : ProviderId → ProviderCaps) (lanes : List (Lane W))
    (chunkBytes : Nat) : effectiveChunk caps lanes chunkBytes ≤ chunkBytes := by
  induction lanes generalizing chunkBytes with
  | nil => exact le_rfl
  | cons l rest ih =>
    refine le_trans (ih _) ?_
    dsimp only
    split <;> omega

theorem effectiveChunk_le_lane (caps : ProviderId → ProviderCaps) (lanes : List (Lane W))
    (chunkBytes : Nat) {l : Lane W} (hl : l ∈ lanes)
    (bounded : (caps l.provider).maxSegmentBytes ≠ 0) :
    effectiveChunk caps lanes chunkBytes ≤ (caps l.provider).maxSegmentBytes := by
  induction lanes generalizing chunkBytes with
  | nil => cases hl
  | cons l' rest ih =>
    rcases List.mem_cons.mp hl with rfl | hrest
    · refine le_trans (effectiveChunk_le caps rest _) ?_
      dsimp only
      split <;> omega
    · exact ih _ hrest

theorem effectiveChunk_pos (caps : ProviderId → ProviderCaps) (lanes : List (Lane W))
    {chunkBytes : Nat} (pos : 0 < chunkBytes) : 0 < effectiveChunk caps lanes chunkBytes := by
  induction lanes generalizing chunkBytes with
  | nil => exact pos
  | cons l rest ih =>
    apply ih
    dsimp only
    split <;> omega

section
variable [LaneCost W]

/-- What `n` more bytes cost on a lane, in proportion to what it carries. -/
def laneCost (l : Lane W) (assigned : W) (n : Nat) : W :=
  let w := if LaneCost.lt LaneCost.zero l.weight then l.weight else LaneCost.tiny
  LaneCost.div (LaneCost.add assigned (LaneCost.ofBytes n)) w

/-- The loop over the lanes: the best cost so far with its lane, if any. -/
def cheapest (n : Nat) : List (Lane W × W) → Nat → Option (W × Nat) → Option (W × Nat)
  | [], _, best => best
  | (l, assigned) :: rest, k, none => cheapest n rest (k + 1) (some (laneCost l assigned n, k))
  | (l, assigned) :: rest, k, some (best, lane) =>
    if LaneCost.lt (laneCost l assigned n) best then
      cheapest n rest (k + 1) (some (laneCost l assigned n, k))
    else cheapest n rest (k + 1) (some (best, lane))

/-- The lane an `n` byte chunk costs least on, for the bytes already given to
each. -/
def chooseLane (lanes : List (Lane W)) (assigned : List W) (n : Nat) : Nat :=
  ((cheapest n (lanes.zip assigned) 0 none).map (·.2)).getD 0

theorem cheapest_bound (n : Nat) (rest : List (Lane W × W)) (k : Nat) (best : Option (W × Nat))
    (known : ∀ b ∈ best, b.2 < k) : ∀ b ∈ cheapest n rest k best, b.2 < k + rest.length := by
  have new (w : W) : ∀ b ∈ some (w, k), b.2 < k + 1 := by simp
  induction rest generalizing k best with
  | nil => simpa [cheapest] using known
  | cons x rest ih =>
    intro b hb
    have later : b.2 < k + 1 + rest.length := by
      rcases best with - | ⟨c, lane⟩
      · exact ih (k + 1) _ (new _) (by simp) b hb
      · simp only [cheapest] at hb
        split at hb
        · exact ih (k + 1) _ (new _) (by simp) b hb
        · refine ih (k + 1) _ (fun d hd => ?_) (by simp) b hb
          exact Nat.lt_succ_of_lt (known d hd)
    simp only [List.length_cons]
    omega

theorem chooseLane_lt {lanes : List (Lane W)} {assigned : List W} (n : Nat)
    (some_lane : lanes ≠ []) (len : assigned.length = lanes.length) :
    chooseLane lanes assigned n < lanes.length := by
  have pos : 0 < lanes.length := List.length_pos_iff.mpr some_lane
  unfold chooseLane
  cases h : cheapest n (lanes.zip assigned) 0 none with
  | none => simpa using pos
  | some b =>
    have := cheapest_bound n (lanes.zip assigned) 0 none (by simp) b h
    simpa [len] using this

/-! ## Segments -/

/-- A pair of segments with the regions they were found in. -/
structure Segment where
  region : MemoryRegion
  remote : RegionDescriptor
  localSpan : Span
  remoteSpan : Span

/-- What the splitting of every segment of a transfer has in common. -/
structure Plan (W : Type) where
  kind : SubOpKind
  request : RequestId
  lanes : List (Lane W)
  caps : ProviderId → ProviderCaps
  chunk : Nat

def Plan.laneName (g : Plan W) (k : Nat) : Bytes :=
  ((g.lanes[k]?).map fun l => (g.caps l.provider).name).getD []

/-- The locals of `build_subops`. -/
structure Build (W : Type) where
  out : List (List SubOp)
  assigned : List W
  subId : Nat
  total : Nat
  held : List RegionId

def Build.start (lanes : List (Lane W)) : Build W where
  out := lanes.map fun _ => []
  assigned := lanes.map fun _ => LaneCost.zero
  subId := 0
  total := 0
  held := []

/-- The permission the peer must have exported a region with. -/
def neededAccess : SubOpKind → AccessFlags
  | .write => AccessFlags.remoteWrite
  | .read => AccessFlags.remoteRead

def checkSegment (kind : SubOpKind) (seg : Segment) : Except Status Unit :=
  if !hasFlag seg.remote.access (neededAccess kind) then .error .invalidArgument
  else if seg.localSpan.length ≠ seg.remoteSpan.length then .error .invalidArgument
  else if !seg.localSpan.within seg.region.length then .error .outOfRange
  else if !seg.remoteSpan.within seg.remote.length then .error .outOfRange
  else .ok ()

/-- The loop over one segment's chunks. The source has no counter: each turn
takes at least a byte, so the segment's length is enough. -/
def chunkLoop (g : Plan W) (seg : Segment) :
    Nat → Nat → Build W → Except Status (Build W)
  | 0, _, b => .ok b
  | fuel + 1, off, b =>
    if off < seg.localSpan.length then
      let n := min (seg.localSpan.length - off) g.chunk
      let lane := chooseLane g.lanes b.assigned n
      match seg.region.localKeyFor (g.laneName lane) with
      | none => .error .unsupported
      | some lkey =>
        match seg.remote.remoteKeyFor (g.laneName lane) with
        | none => .error .unsupported
        | some rkey =>
          let op : SubOp := {
            kind := g.kind
            request := g.request
            subId := b.subId
            localAddr := u64 (seg.region.base + seg.localSpan.offset + off)
            localKey := lkey
            remoteAddr := u64 (seg.remote.base + seg.remoteSpan.offset + off)
            remoteKey := rkey
            length := n }
          chunkLoop g seg fuel (off + n)
            { b with
              out := b.out.modify lane (· ++ [op])
              assigned := b.assigned.modify lane (LaneCost.add · (LaneCost.ofBytes n))
              subId := b.subId + 1 }
    else .ok b

def splitSegment (g : Plan W) (seg : Segment) (b : Build W) : Except Status (Build W) :=
  match checkSegment g.kind seg with
  | .error s => .error s
  | .ok () =>
    chunkLoop g seg seg.localSpan.length 0
      { b with
        held := b.held ++ [seg.region.id]
        total := u64 (b.total + seg.localSpan.length) }

/-- The segments one after the other, once they are found. -/
def splitSegments (g : Plan W) : List Segment → Build W → Except Status (Build W)
  | [], b => .ok b
  | seg :: rest, b =>
    match splitSegment g seg b with
    | .error s => .error s
    | .ok b' => splitSegments g rest b'

/-! ## Finding the regions -/

/-- How regions are found: `find_region` and `find_remote`, and the flags of
what they found. -/
structure Lookup (m : Type → Type _) where
  findRegion : RegionId → m (Option MemoryRegion)
  retired : RegionId → m Bool
  findRemote : PeerId → RegionId → m (Option (RemoteId × RegionDescriptor))
  valid : RemoteId → m Bool

/-- What `build_subops` hands back. -/
structure Built where
  perLane : List (List SubOp)
  held : List RegionId
  targetAddr : Nat
  targetBytes : Nat
  deriving DecidableEq, Repr

section
universe u
variable {m : Type → Type u} [Monad m]

def buildLoop (look : Lookup m) (g : Plan W) (peer : PeerId) :
    List RegionView → List RegionView → Build W → m (Except Status (Build W))
  | l :: ls, r :: rs, b => do
    match ← look.findRegion l.region with
    | none => pure (.error .notFound)
    | some lr =>
      if ← look.retired lr.id then pure (.error .staleGeneration)
      else
        match ← look.findRemote peer r.region with
        | none => pure (.error .notFound)
        | some (ptr, desc) =>
          if ← look.valid ptr then
            match splitSegment g ⟨lr, desc, l.span, r.span⟩ b with
            | .error s => pure (.error s)
            | .ok b' => buildLoop look g peer ls rs b'
          else pure (.error .staleGeneration)
  | _, _, b => pure (.ok b)

def buildSubops (look : Lookup m) (caps : ProviderId → ProviderCaps) (chunkBytes : Nat)
    (peer : PeerId) (loc remote : List RegionView) (kind : SubOpKind) (req : RequestId)
    (lanes : List (Lane W)) : m (Except Status Built) := do
  if lanes.isEmpty then pure (.error .notFound)
  else
    let g : Plan W := ⟨kind, req, lanes, caps, effectiveChunk caps lanes chunkBytes⟩
    match ← buildLoop look g peer loc remote (Build.start lanes) with
    | .error s => pure (.error s)
    | .ok b =>
      match loc with
      | [] => pure (.ok ⟨b.out, b.held, 0, b.total⟩)
      | l :: _ =>
        match ← look.findRegion l.region with
        | none => pure (.ok ⟨b.out, b.held, 0, b.total⟩)
        | some lr => pure (.ok ⟨b.out, b.held, u64 (lr.base + l.span.offset), b.total⟩)

end

end

/-! ## What splitting keeps -/

theorem mem_modify {α : Type} {l : List α} {i : Nat} {f : α → α} {x : α}
    (h : x ∈ l.modify i f) : x ∈ l ∨ ∃ y ∈ l, x = f y := by
  obtain ⟨k, hk, rfl⟩ := List.mem_iff_getElem.mp h
  have bound : k < l.length := by simpa using hk
  rw [List.getElem_modify]
  split
  · exact .inr ⟨_, List.getElem_mem bound, rfl⟩
  · exact .inl (List.getElem_mem bound)

/-- The operations of a build are all of the request they are built for. -/
def Build.Mine (g : Plan W) (b : Build W) : Prop :=
  ∀ ops ∈ b.out, ∀ op ∈ ops, op.request = g.request

/-- What every segment leaves as it is, whatever the regions. -/
structure Grown (g : Plan W) (b b' : Build W) : Prop where
  lanes : b'.out.length = b.out.length
  mine : b.Mine g → b'.Mine g

variable {g : Plan W} {b b' : Build W}

/-- An operation that a segment's loop cuts off for a lane. -/
structure Segment.Piece (g : Plan W) (seg : Segment) (lane : Nat) (op : SubOp) : Prop where
  request : op.request = g.request
  inside : ∃ off, off + op.length ≤ seg.localSpan.length ∧
    op.remoteAddr = u64 (seg.remote.base + seg.remoteSpan.offset + off)
  small : op.length ≤ g.chunk
  localKey : seg.region.localKeyFor (g.laneName lane) = some op.localKey
  remoteKey : seg.remote.remoteKeyFor (g.laneName lane) = some op.remoteKey

section
variable [LaneCost W] {I : Build W → Prop}

/-- The operation goes to the lane chosen for its length. -/
def Build.push (g : Plan W) (b : Build W) (op : SubOp) : Build W :=
  { b with
    out := b.out.modify (chooseLane g.lanes b.assigned op.length) (· ++ [op])
    assigned := b.assigned.modify (chooseLane g.lanes b.assigned op.length)
      (LaneCost.add · (LaneCost.ofBytes op.length))
    subId := b.subId + 1 }

/-- What every piece keeps, the loop over a segment keeps. -/
theorem chunkLoop_rule {seg : Segment} {fuel off : Nat} (run : chunkLoop g seg fuel off b = .ok b')
    (start : I b) (push : ∀ b op, seg.Piece g (chooseLane g.lanes b.assigned op.length) op →
      I b → I (b.push g op)) : I b' := by
  induction fuel generalizing off b with
  | zero =>
    cases run
    exact start
  | succ fuel ih =>
    simp only [chunkLoop] at run
    split at run
    · split at run
      · cases run
      rename_i lkey hlkey
      split at run
      · cases run
      rename_i rkey hrkey
      have inside : off + min (seg.localSpan.length - off) g.chunk ≤ seg.localSpan.length := by
        omega
      exact ih run (push b _ ⟨rfl, ⟨off, inside, rfl⟩, Nat.min_le_right _ _, hlkey, hrkey⟩ start)
    · cases run
      exact start

theorem chunkLoop_grown {seg : Segment} (fuel : Nat) {off : Nat}
    (run : chunkLoop g seg fuel off b = .ok b') : Grown g b b' ∧ b'.held = b.held := by
  refine chunkLoop_rule (I := fun b' => Grown g b b' ∧ b'.held = b.held) run ⟨⟨rfl, id⟩, rfl⟩ ?_
  rintro b₁ op piece ⟨⟨lanes, mine⟩, held⟩
  refine ⟨⟨by simpa [Build.push] using lanes, fun old => ?_⟩, held⟩
  intro ops hops op' hop
  rcases mem_modify hops with same | ⟨ops', hops', rfl⟩
  · exact mine old ops same op' hop
  · rcases List.mem_append.mp hop with before | new
    · exact mine old ops' hops' op' before
    · rw [List.mem_singleton.mp new, piece.request]

end

variable {segs : List Segment}

theorem splitSegments_grown [LaneCost W] (run : splitSegments g segs b = .ok b') :
    Grown g b b' ∧ b'.held = b.held ++ segs.map (·.region.id) := by
  induction segs generalizing b with
  | nil =>
    simp only [splitSegments, Except.ok.injEq] at run
    subst run
    exact ⟨⟨rfl, id⟩, by simp⟩
  | cons seg rest ih =>
    simp only [splitSegments] at run
    split at run
    · cases run
    rename_i b₁ first
    simp only [splitSegment] at first
    split at first
    · cases first
    obtain ⟨⟨lanes₁, mine₁⟩, held₁⟩ := chunkLoop_grown _ first
    obtain ⟨⟨lanes₂, mine₂⟩, held₂⟩ := ih run
    exact ⟨⟨lanes₂.trans lanes₁, fun h => mine₂ (mine₁ h)⟩, by simp [held₂, held₁]⟩

/-- What a lane is given. -/
def Build.onLane (b : Build W) (k : Nat) : List SubOp := b.out.getD k []

variable {lane : Nat} {op : SubOp}

theorem mem_onLane_modify {out : List (List SubOp)} {k : Nat} {new : SubOp}
    (h : op ∈ (out.modify lane (· ++ [new])).getD k []) :
    op ∈ out.getD k [] ∨ k = lane ∧ op = new := by
  simp only [List.getD_eq_getElem?_getD, List.getElem?_modify] at h ⊢
  cases hk : out[k]? with
  | none => simp [hk] at h
  | some ops =>
    by_cases eq : lane = k
    · simp [hk, eq] at h
      rcases h with old | rfl
      · exact .inl (by simpa using old)
      · exact .inr ⟨eq.symm, rfl⟩
    · simp [hk, eq] at h
      exact .inl (by simpa using h)

variable {look : Lookup Id} {peer : PeerId} {loc remote : List RegionView}

/-- What finding a segment and what every piece of it keeps, the loop over the segments
keeps. -/
theorem buildLoop_rule [LaneCost W] {I : Build W → Prop}
    (run : (buildLoop look g peer loc remote b).run = .ok b') (start : I b)
    (hold : ∀ b held total, I b → I { b with held := held, total := total })
    (push : ∀ x ∈ loc.zip remote, ∀ lr ptr desc, look.findRegion x.1.region = some lr →
      look.findRemote peer x.2.region = some (ptr, desc) →
      checkSegment g.kind ⟨lr, desc, x.1.span, x.2.span⟩ = .ok () → ∀ b op,
      Segment.Piece g ⟨lr, desc, x.1.span, x.2.span⟩ (chooseLane g.lanes b.assigned op.length) op →
      I b → I (b.push g op)) : I b' := by
  induction loc generalizing remote b with
  | nil =>
    cases run
    exact start
  | cons l ls ih =>
    obtain - | ⟨r, rs⟩ := remote
    · cases run
      exact start
    simp only [buildLoop, bind, pure, Id.run] at run
    split at run; · cases run
    rename_i lr here
    split at run; · cases run
    split at run; · cases run
    rename_i ptr desc there
    split at run
    · split at run; · cases run
      rename_i b₁ first
      simp only [splitSegment] at first
      split at first
      · cases first
      rename_i passed
      obtain ⟨now, later⟩ := List.forall_mem_cons.mp push
      exact ih run (chunkLoop_rule first (hold _ _ _ start)
        (now lr ptr desc here there passed)) later
    · cases run

theorem buildLoop_lanes [LaneCost W] (run : (buildLoop look g peer loc remote b).run = .ok b') :
    b'.out.length = b.out.length := by
  refine buildLoop_rule (I := fun b' => b'.out.length = b.out.length) run rfl
    (fun _ _ _ same => same) fun x _ lr ptr desc _ _ _ b₁ op _ same => ?_
  simpa [Build.push] using same

theorem Build.start_mine [LaneCost W] (g : Plan W) (lanes : List (Lane W)) :
    (Build.start lanes).Mine g := by
  intro ops hops op hop
  obtain ⟨-, -, rfl⟩ := List.mem_map.mp hops
  cases hop

/-- A refusal is never `kOk`. -/
theorem splitSegment_error [LaneCost W] {seg : Segment} {s : Status}
    (run : splitSegment g seg b = .error s) : s ≠ .ok := by
  have loop (fuel off : Nat) (b : Build W) (run : chunkLoop g seg fuel off b = .error s) :
      s ≠ .ok := by
    induction fuel generalizing off b with
    | zero => cases run
    | succ fuel ih =>
      simp only [chunkLoop] at run
      split at run
      · split at run
        · cases run; decide
        split at run
        · cases run; decide
        exact ih _ _ run
      · cases run
  simp only [splitSegment] at run
  split at run
  · rename_i refused
    cases run
    simp only [checkSegment] at refused
    split at refused; · cases refused; decide
    split at refused; · cases refused; decide
    split at refused; · cases refused; decide
    split at refused; · cases refused; decide
    cases refused
  · exact loop _ _ _ run

/-! ## Tilings -/

/-- The key a peer exported a region with for one transport: the one recorded
under its name, or the unnamed one if the descriptor names none. -/
def RemoteKeyed (d : RegionDescriptor) (name : Bytes) (key : Nat) : Prop :=
  (d.providerKeys.find? (·.provider == name)).map (·.remoteKey) = some key ∨
    d.providerKeys = [] ∧ key = d.remoteKey

/-- Operation `op` on lane `lane` is the piece of a segment that starts `off`
bytes into it. -/
structure Piece (g : Plan W) (seg : Segment) (off lane : Nat) (op : SubOp) : Prop where
  kind : op.kind = g.kind
  request : op.request = g.request
  nonempty : 0 < op.length
  short : op.length ≤ g.chunk
  inside : off + op.length ≤ seg.localSpan.length
  local_addr : op.localAddr = seg.region.base + seg.localSpan.offset + off
  remote_addr : op.remoteAddr = seg.remote.base + seg.remoteSpan.offset + off
  in_region : seg.localSpan.offset + off + op.length ≤ seg.region.length
  in_remote : seg.remoteSpan.offset + off + op.length ≤ seg.remote.length
  local_key : seg.region.localKeyFor (g.laneName lane) = some op.localKey
  remote_key : RemoteKeyed seg.remote (g.laneName lane) op.remoteKey

/-- Consecutive pieces from `off` to the end of a segment. -/
def Covers (g : Plan W) (seg : Segment) : Nat → List (Nat × SubOp) → Prop
  | off, [] => off = seg.localSpan.length
  | off, (lane, op) :: rest => Piece g seg off lane op ∧ Covers g seg (off + op.length) rest

/-- The pieces of every segment, in the segments' order. -/
inductive Tiles (g : Plan W) : List Segment → List (Nat × SubOp) → Prop
  | nil : Tiles g [] []
  | cons {seg : Segment} {segs : List Segment} {pieces rest : List (Nat × SubOp)} :
      Covers g seg 0 pieces → Tiles g segs rest → Tiles g (seg :: segs) (pieces ++ rest)

/-- The operations one lane was given, in the order they were placed. -/
def laneOps (placed : List (Nat × SubOp)) (k : Nat) : List SubOp :=
  (placed.filter fun x => x.1 == k).map (·.2)

/-- The lanes hold exactly what was placed, numbered in the order of placing. -/
structure Spread (g : Plan W) (placed : List (Nat × SubOp)) (b : Build W) : Prop where
  out : b.out = (List.range g.lanes.length).map (laneOps placed)
  assigned : b.assigned.length = g.lanes.length
  next : b.subId = placed.length
  ids : placed.map (·.2.subId) = List.range placed.length
  lanes : ∀ x ∈ placed, x.1 < g.lanes.length

theorem laneOps_append (placed rest : List (Nat × SubOp)) (k : Nat) :
    laneOps (placed ++ rest) k = laneOps placed k ++ laneOps rest k := by
  simp [laneOps]

theorem spread_start [LaneCost W] (g : Plan W) : Spread g [] (Build.start g.lanes) where
  out := by apply List.ext_getElem <;> simp [Build.start, laneOps]
  assigned := by simp [Build.start]
  next := rfl
  ids := rfl
  lanes := by simp

variable {placed : List (Nat × SubOp)}

/-- Giving the next operation to a lane keeps the lanes spread. -/
theorem Spread.push {w : W → W} (h : Spread g placed b) (hlane : lane < g.lanes.length)
    (hid : op.subId = b.subId) : Spread g (placed ++ [(lane, op)])
      { b with
        out := b.out.modify lane (· ++ [op])
        assigned := b.assigned.modify lane w
        subId := b.subId + 1 } where
  out := by
    apply List.ext_getElem
    · simp [h.out]
    · intro k hk hk'
      simp only [h.out, List.getElem_modify, List.getElem_map, List.getElem_range,
        laneOps_append]
      by_cases eq : lane = k <;> simp [laneOps, eq]
  assigned := by simp [h.assigned]
  next := by simp [h.next]
  ids := by simp [h.ids, hid, h.next, List.range_succ]
  lanes := by
    intro x hx
    rcases List.mem_append.mp hx with old | new
    · exact h.lanes x old
    · obtain rfl := List.mem_singleton.mp new
      exact hlane

theorem remoteKeyFor_keyed {d : RegionDescriptor} {name : Bytes} {key : Nat}
    (h : d.remoteKeyFor name = some key) : RemoteKeyed d name key := by
  unfold RegionDescriptor.remoteKeyFor at h
  split at h
  · rename_i k hk
    exact .inl (by rw [hk]; exact h)
  · split at h
    · rename_i empty
      exact .inr ⟨by simpa using empty, (Option.some.inj h).symm⟩
    · cases h

/-- What the checks of a segment establish, and no wrap in either region. -/
structure Checked (g : Plan W) (seg : Segment) : Prop where
  chunk : 0 < g.chunk
  lanes : g.lanes ≠ []
  same : seg.localSpan.length = seg.remoteSpan.length
  in_region : seg.localSpan.offset + seg.localSpan.length ≤ seg.region.length
  in_remote : seg.remoteSpan.offset + seg.remoteSpan.length ≤ seg.remote.length
  no_wrap : seg.region.base + seg.region.length ≤ 2 ^ 64
  no_wrap_remote : seg.remote.base + seg.remote.length ≤ 2 ^ 64

section
variable [LaneCost W]

variable {g : Plan W} {seg : Segment} {b b' : Build W} {placed : List (Nat × SubOp)}

/-- The invariant of the chunk loop: what it adds are the pieces from its
offset on. -/
theorem chunkLoop_covers (ok : Checked g seg) (fuel : Nat) {off : Nat}
    (spread : Spread g placed b) (at_most : off ≤ seg.localSpan.length)
    (enough : seg.localSpan.length - off ≤ fuel) (run : chunkLoop g seg fuel off b = .ok b') :
    ∃ pieces, Covers g seg off pieces ∧ Spread g (placed ++ pieces) b' := by
  induction fuel generalizing off b placed with
  | zero =>
    simp only [chunkLoop, Except.ok.injEq] at run
    subst run
    exact ⟨[], by simp only [Covers]; omega, by simpa using spread⟩
  | succ fuel ih =>
    simp only [chunkLoop] at run
    split at run
    · rename_i more
      split at run
      · cases run
      rename_i lkey hlkey
      split at run
      · cases run
      rename_i rkey hrkey
      -- the piece this turn cuts off, and the rest by induction
      have hlane := chooseLane_lt (min (seg.localSpan.length - off) g.chunk) ok.lanes
        spread.assigned
      have hchunk := ok.chunk
      have hsame := ok.same
      have hin := ok.in_region
      have hin' := ok.in_remote
      have hwrap := ok.no_wrap
      have hwrap' := ok.no_wrap_remote
      obtain ⟨pieces, covers, spread'⟩ :=
        ih (spread.push hlane rfl) (by omega) (by omega) run
      refine ⟨_ :: pieces, ⟨?_, covers⟩, by simpa using spread'⟩
      exact {
        kind := rfl
        request := rfl
        nonempty := by dsimp only; omega
        short := Nat.min_le_right _ _
        inside := by dsimp only; omega
        local_addr := u64_of_lt (by omega)
        remote_addr := u64_of_lt (by omega)
        in_region := by dsimp only; omega
        in_remote := by dsimp only; omega
        local_key := hlkey
        remote_key := remoteKeyFor_keyed hrkey }
    · rename_i done
      simp only [Except.ok.injEq] at run
      subst run
      exact ⟨[], by simp only [Covers]; omega, by simpa using spread⟩

theorem checkSegment_ok {kind : SubOpKind} (h : checkSegment kind seg = .ok ()) :
    hasFlag seg.remote.access (neededAccess kind) = true ∧
      seg.localSpan.length = seg.remoteSpan.length ∧
      seg.localSpan.offset + seg.localSpan.length ≤ seg.region.length ∧
      seg.remoteSpan.offset + seg.remoteSpan.length ≤ seg.remote.length := by
  simp only [checkSegment] at h
  split at h; · cases h
  rename_i access
  split at h; · cases h
  rename_i same
  split at h; · cases h
  rename_i inRegion
  split at h; · cases h
  rename_i inRemote
  simp only [Bool.not_eq_true', Bool.not_eq_false] at access inRegion inRemote
  exact ⟨access, not_not.mp same, (Span.within_iff _ _).mp inRegion,
    (Span.within_iff _ _).mp inRemote⟩

/-- A segment whose regions end within the address space. -/
structure Segment.NoWrap (seg : Segment) : Prop where
  region : seg.region.base + seg.region.length ≤ 2 ^ 64
  remote : seg.remote.base + seg.remote.length ≤ 2 ^ 64

theorem splitSegment_covers (chunk : 0 < g.chunk) (lanes : g.lanes ≠ []) (wrap : seg.NoWrap)
    (spread : Spread g placed b) (run : splitSegment g seg b = .ok b') :
    ∃ pieces, Covers g seg 0 pieces ∧ Spread g (placed ++ pieces) b' := by
  simp only [splitSegment] at run
  split at run
  · cases run
  rename_i passed
  obtain ⟨-, same, inRegion, inRemote⟩ := checkSegment_ok passed
  have checked : Checked g seg :=
    ⟨chunk, lanes, same, inRegion, inRemote, wrap.region, wrap.remote⟩
  have spread' : Spread g placed
      { b with
        held := b.held ++ [seg.region.id]
        total := u64 (b.total + seg.localSpan.length) } :=
    ⟨spread.out, spread.assigned, spread.next, spread.ids, spread.lanes⟩
  exact chunkLoop_covers checked _ spread' (Nat.zero_le _) le_rfl run

theorem splitSegments_tiles {segs : List Segment} (chunk : 0 < g.chunk) (lanes : g.lanes ≠ [])
    (wrap : ∀ seg ∈ segs, seg.NoWrap) (spread : Spread g placed b)
    (run : splitSegments g segs b = .ok b') :
    ∃ pieces, Tiles g segs pieces ∧ Spread g (placed ++ pieces) b' := by
  induction segs generalizing b placed with
  | nil =>
    simp only [splitSegments, Except.ok.injEq] at run
    subst run
    exact ⟨[], .nil, by simpa using spread⟩
  | cons seg rest ih =>
    simp only [splitSegments] at run
    split at run
    · cases run
    rename_i b₁ first
    obtain ⟨pieces, covers, spread₁⟩ :=
      splitSegment_covers chunk lanes (wrap seg List.mem_cons_self) spread first
    obtain ⟨more, tiles, spread₂⟩ :=
      ih (fun s hs => wrap s (List.mem_cons_of_mem _ hs)) spread₁ run
    exact ⟨pieces ++ more, .cons covers tiles, by simpa using spread₂⟩

end

/-! ## What a caller alone with the engine gets -/

/-- The segments a pair of view lists names, as the lookups found them. -/
inductive Found (look : Lookup Id) (peer : PeerId) :
    List RegionView → List RegionView → List Segment → Prop
  | nil : Found look peer [] [] []
  | cons {l r : RegionView} {ls rs : List RegionView} {segs : List Segment} {lr : MemoryRegion}
      {ptr : RemoteId} {desc : RegionDescriptor} :
      look.findRegion l.region = some lr → look.retired lr.id = false →
      look.findRemote peer r.region = some (ptr, desc) → look.valid ptr = true →
      Found look peer ls rs segs →
      Found look peer (l :: ls) (r :: rs) (⟨lr, desc, l.span, r.span⟩ :: segs)

theorem buildLoop_found [LaneCost W] (same : loc.length = remote.length)
    (run : (buildLoop look g peer loc remote b).run = .ok b') :
    ∃ segs, Found look peer loc remote segs ∧ splitSegments g segs b = .ok b' := by
  induction loc generalizing remote b with
  | nil =>
    obtain rfl := List.length_eq_zero_iff.mp same.symm
    exact ⟨[], .nil, run⟩
  | cons l ls ih =>
    obtain - | ⟨r, rs⟩ := remote
    · cases same
    simp only [buildLoop, bind, pure, Id.run] at run
    split at run; · cases run
    rename_i lr region
    split at run; · cases run
    rename_i live
    split at run; · cases run
    rename_i ptr desc imported
    split at run
    · rename_i valid
      split at run; · cases run
      rename_i b₁ first
      obtain ⟨segs, found, rest⟩ := ih (Nat.succ.inj same) run
      refine ⟨_ :: segs, .cons region (Bool.not_eq_true _ ▸ live) imported valid found, ?_⟩
      simp only [splitSegments, first, rest]
    · cases run

theorem Found.noWrap (regions : ∀ id r, look.findRegion id = some r → r.base + r.length ≤ 2 ^ 64)
    (remotes : ∀ id ptr d, look.findRemote peer id = some (ptr, d) → d.base + d.length ≤ 2 ^ 64)
    (found : Found look peer loc remote segs) : ∀ seg ∈ segs, seg.NoWrap := by
  induction found with
  | nil => simp
  | cons region _ imported _ _ ih =>
    intro seg hseg
    rcases List.mem_cons.mp hseg with rfl | hrest
    · exact ⟨regions _ _ region, remotes _ _ _ imported⟩
    · exact ih seg hrest

theorem laneOps_cons (lane : Nat) (op : SubOp) (rest : List (Nat × SubOp)) (k : Nat) :
    laneOps ((lane, op) :: rest) k = if lane = k then op :: laneOps rest k else laneOps rest k := by
  by_cases h : lane = k <;> simp [laneOps, h]

theorem laneOps_place {lanes : List Nat} (distinct : lanes.Nodup) (hlane : lane ∈ lanes)
    (op : SubOp) (rest : List (Nat × SubOp)) :
    (lanes.flatMap (laneOps ((lane, op) :: rest))).Perm (op :: lanes.flatMap (laneOps rest)) := by
  induction lanes with
  | nil => cases hlane
  | cons k ks ih =>
    obtain ⟨fresh, distinct⟩ := List.nodup_cons.mp distinct
    simp only [List.flatMap_cons, laneOps_cons]
    rcases List.mem_cons.mp hlane with rfl | later
    · have unchanged : ks.flatMap (laneOps ((lane, op) :: rest)) = ks.flatMap (laneOps rest) := by
        apply List.flatMap_congr
        intro j hj
        rw [laneOps_cons, if_neg (ne_of_mem_of_not_mem hj fresh).symm]
      simp [unchanged]
    · have ne : lane ≠ k := fun eq => fresh (eq ▸ later)
      rw [if_neg ne]
      exact ((ih distinct later).append_left _).trans List.perm_middle

/-- The lanes together hold what was placed, each operation once. -/
theorem laneOps_perm (n : Nat) (placed : List (Nat × SubOp)) (bound : ∀ x ∈ placed, x.1 < n) :
    ((List.range n).flatMap (laneOps placed)).Perm (placed.map (·.2)) := by
  induction placed with
  | nil => simp [laneOps]
  | cons x rest ih =>
    have hx : x.1 ∈ List.range n := List.mem_range.mpr (bound x List.mem_cons_self)
    refine (laneOps_place List.nodup_range hx x.2 rest).trans ?_
    exact (ih fun y hy => bound y (List.mem_cons_of_mem _ hy)).cons _

theorem laneOps_increasing (ids : placed.map (·.2.subId) = List.range placed.length) (k : Nat) :
    ((laneOps placed k).map (·.subId)).Pairwise (· < ·) := by
  have sorted : (placed.map (·.2.subId)).Pairwise (· < ·) := ids ▸ List.pairwise_lt_range
  rw [laneOps, List.map_map]
  exact sorted.sublist (List.filter_sublist.map _)

theorem Tiles.short (h : Tiles g segs placed) : ∀ x ∈ placed, x.2.length ≤ g.chunk := by
  have covers {seg : Segment} {off : Nat} {pieces : List (Nat × SubOp)}
      (h : Covers g seg off pieces) : ∀ x ∈ pieces, x.2.length ≤ g.chunk := by
    induction pieces generalizing off with
    | nil => simp
    | cons x rest ih =>
      exact List.forall_mem_cons.mpr ⟨h.1.short, ih h.2⟩
  induction h with
  | nil => simp
  | cons first _ ih => exact List.forall_mem_append.mpr ⟨covers first, ih⟩

/-- A transfer that is split, and the lanes as its segments leave them. -/
theorem buildSubops_ok [LaneCost W] {caps : ProviderId → ProviderCaps} {chunkBytes : Nat}
    {kind : SubOpKind} {req : RequestId} {lanes : List (Lane W)} {built : Built}
    (ok : (buildSubops look caps chunkBytes peer loc remote kind req lanes).run = .ok built) :
    lanes ≠ [] ∧ ∃ b, built.perLane = b.out ∧
      (buildLoop look ⟨kind, req, lanes, caps, effectiveChunk caps lanes chunkBytes⟩ peer loc remote
        (Build.start lanes)).run = .ok b := by
  simp only [buildSubops, bind, pure, Id.run] at ok
  split at ok; · cases ok
  rename_i nonempty
  split at ok; · cases ok
  rename_i b run
  refine ⟨by simpa using nonempty, b, ?_, run⟩
  split at ok
  · cases ok; rfl
  · split at ok <;> cases ok <;> rfl

/-- What is given to a lane is given to one there is. -/
theorem lane_of_mem [LaneCost W] {k : Nat}
    (run : (buildLoop look g peer loc remote (Build.start g.lanes)).run = .ok b)
    (mem : op ∈ b.onLane k) :
    ∃ lane, g.lanes[k]? = some lane ∧ g.laneName k = (g.caps lane.provider).name := by
  have lengths : b.out.length = g.lanes.length := by
    simpa [Build.start] using buildLoop_lanes run
  have bound : k < g.lanes.length := by
    by_contra beyond
    simp [Build.onLane, List.getD_eq_getElem?_getD, lengths, beyond] at mem
  refine ⟨g.lanes[k], List.getElem?_eq_getElem bound, ?_⟩
  simp [Plan.laneName, List.getElem?_eq_getElem bound]

theorem Build.start_onLane [LaneCost W] (lanes : List (Lane W)) (k : Nat) :
    (Build.start lanes).onLane k = [] := by
  simp only [Build.onLane, Build.start, List.getD_eq_getElem?_getD, List.getElem?_map]
  cases lanes[k]? <;> rfl

/-- Whatever `build_subops` hands out tiles the segments it was given: numbered
in the order of the bytes, over all the lanes, no piece longer than any lane
carries. -/
theorem build_subops_tiles [LaneCost W] (look : Lookup Id) (caps : ProviderId → ProviderCaps)
    (chunkBytes : Nat) (peer : PeerId) (loc remote : List RegionView) (kind : SubOpKind)
    (req : RequestId) (lanes : List (Lane W)) (built : Built)
    (same : loc.length = remote.length) (pos : 0 < chunkBytes)
    (regions : ∀ id r, look.findRegion id = some r → r.base + r.length ≤ 2 ^ 64)
    (remotes : ∀ id ptr d, look.findRemote peer id = some (ptr, d) → d.base + d.length ≤ 2 ^ 64)
    (ok : (buildSubops look caps chunkBytes peer loc remote kind req lanes).run = .ok built) :
    ∃ segs placed,
      Found look peer loc remote segs ∧
      Tiles ⟨kind, req, lanes, caps, effectiveChunk caps lanes chunkBytes⟩ segs placed ∧
      placed.map (·.2.subId) = List.range placed.length ∧
      built.perLane = (List.range lanes.length).map (laneOps placed) ∧
      built.perLane.flatten.Perm (placed.map (·.2)) ∧
      (∀ x ∈ placed, x.1 < lanes.length ∧ x.2.length ≤ chunkBytes ∧
        ∀ l ∈ lanes, (caps l.provider).maxSegmentBytes ≠ 0 →
          x.2.length ≤ (caps l.provider).maxSegmentBytes) ∧
      ∀ ops ∈ built.perLane, (ops.map (·.subId)).Pairwise (· < ·) := by
  obtain ⟨some_lane, b, perLane, run⟩ := buildSubops_ok ok
  obtain ⟨segs, found, split⟩ := buildLoop_found same run
  obtain ⟨placed, tiles, spread⟩ := splitSegments_tiles (effectiveChunk_pos caps lanes pos)
    some_lane (found.noWrap regions remotes) (spread_start _) split
  have out := perLane.trans spread.out
  have lanes_bound : ∀ x ∈ placed, x.1 < lanes.length := spread.lanes
  refine ⟨segs, placed, found, tiles, spread.ids, out, ?_, ?_, ?_⟩
  · rw [out, ← List.flatMap_def]
    exact laneOps_perm _ placed lanes_bound
  · intro x hx
    have short := tiles.short x hx
    exact ⟨lanes_bound x hx, short.trans (effectiveChunk_le caps lanes chunkBytes),
      fun l hl bounded => short.trans (effectiveChunk_le_lane caps lanes chunkBytes hl bounded)⟩
  · rw [out]
    intro ops hops
    obtain ⟨k, -, rfl⟩ := List.mem_map.mp hops
    exact laneOps_increasing spread.ids k

/-- A region of ten bytes here and one of the peer's, over two transports. -/
def tenBytesHere : MemoryRegion where
  origin := .zero
  id := 1
  generation := 1
  base := 4096
  length := 10
  device := ⟨0, 0⟩
  access := AccessFlags.localWrite
  reg := ⟨4096, 10, ⟨0, 0⟩, AccessFlags.localWrite, [⟨[0], 3, 3⟩, ⟨[1], 4, 4⟩], 3, 3⟩

def tenBytesThere : RegionDescriptor where
  major := 2
  minor := 0
  origin := .zero
  region := 7
  generation := 1
  base := 8192
  length := 10
  remoteKey := 5
  providerKeys := [⟨[0], 5⟩, ⟨[1], 6⟩]
  device := ⟨0, 0⟩
  access := AccessFlags.remoteRead

def tenBytes : Lookup Id where
  findRegion _ := some tenBytesHere
  retired _ := false
  findRemote _ _ := some (0, tenBytesThere)
  valid _ := true

def tenBytesBuilt : Built where
  perLane := [[⟨.read, 9, 1, 4100, 3, 8196, 5, 4⟩],
    [⟨.read, 9, 0, 4096, 4, 8192, 6, 4⟩, ⟨.read, 9, 2, 4104, 4, 8200, 6, 2⟩]]
  held := [1]
  targetAddr := 4096
  targetBytes := 10

theorem build_subops_tiles_ten_bytes :
    ∃ segs placed,
      Tiles ⟨.read, 9, [(⟨0, some 0, 1⟩ : Lane ℚ), ⟨1, some 1, 2⟩], fun p => ⟨[p.toUInt8], 0⟩, 4⟩
        segs placed ∧
      tenBytesBuilt.perLane.flatten.Perm (placed.map (·.2)) := by
  obtain ⟨segs, placed, -, tiles, -, -, perm, -⟩ := build_subops_tiles tenBytes
    (fun p => ⟨[p.toUInt8], 0⟩) 4 1 [⟨1, ⟨0, 10⟩⟩] [⟨7, ⟨0, 10⟩⟩] .read 9
    [(⟨0, some 0, 1⟩ : Lane ℚ), ⟨1, some 1, 2⟩] tenBytesBuilt rfl (by decide)
    (by rintro _ _ ⟨⟩; decide) (by rintro _ _ _ ⟨⟩; decide) (by decide +kernel)
  exact ⟨segs, placed, tiles, perm⟩

end Hux
