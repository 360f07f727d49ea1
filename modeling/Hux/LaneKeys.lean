import Mathlib.Tactic.Linarith
import Hux.Local
import Hux.Shares

/-!
# Which lanes a transfer may go over

A provider that refused some memory has no key for it. `import_region` asks that
some lane of the peer has one; `build_subops` gives each chunk to the lane that it
costs least on, and looks for the keys afterwards.

* `Paired`: the regions of a pair of segments;
* `Keyed`: a transport with a key for both of them;
* `Routed`: chunks that each go, by cost alone, to such a transport.
-/

namespace Hux
open Wire (Bytes)

variable {W : Type} [LaneCost W]

/-- The regions that a pair of segments is found in. -/
def Paired (look : Lookup Id) (peer : PeerId) (loc remote : List RegionView) (lr : MemoryRegion)
    (desc : RegionDescriptor) : Prop :=
  ∃ x ∈ loc.zip remote, look.findRegion x.1.region = some lr ∧
    ∃ ptr, look.findRemote peer x.2.region = some (ptr, desc)

/-- The transport of that name has a key for the region here and one for the
peer's. -/
def Keyed (name : Bytes) (lr : MemoryRegion) (desc : RegionDescriptor) : Prop :=
  (lr.localKeyFor name).isSome = true ∧ (desc.remoteKeyFor name).isSome = true

/-- The two keys an operation carries. -/
def Carries (name : Bytes) (lr : MemoryRegion) (desc : RegionDescriptor) (op : SubOp) : Prop :=
  lr.localKeyFor name = some op.localKey ∧ desc.remoteKeyFor name = some op.remoteKey

variable {op : SubOp}

theorem Carries.keyed {name : Bytes} {lr : MemoryRegion} {desc : RegionDescriptor}
    (carries : Carries name lr desc op) : Keyed name lr desc := by
  unfold Keyed
  rw [carries.1, carries.2]
  exact ⟨rfl, rfl⟩

instance (name : Bytes) (lr : MemoryRegion) (desc : RegionDescriptor) :
    Decidable (Keyed name lr desc) :=
  inferInstanceAs (Decidable (_ ∧ _))

/-! ## Routes

Where the chunks of a transfer go is settled by their lengths and the lanes'
weights, before any key is looked for. -/

/-- The longest a chunk may be: `chunk_bytes`, or the least that some lane carries in
one operation. -/
def ChunkLimit (caps : ProviderId → ProviderCaps) (lanes : List (Lane W)) (chunkBytes c : Nat) :
    Prop :=
  IsLeast (insert chunkBytes
    {n | 0 < n ∧ ∃ lane ∈ lanes, (caps lane.provider).maxSegmentBytes = n}) c

/-- The lengths of a segment's chunks: as many whole ones as fit, and what is left. -/
def pieces (c length : Nat) : List Nat :=
  List.replicate (length / c) c ++ if length % c = 0 then [] else [length % c]

/-- Each chunk of the segments, in order. -/
def chunks (c : Nat) (segs : List Segment) : List (Segment × Nat) :=
  segs.flatMap fun seg => (pieces c seg.localSpan.length).map (seg, ·)

/-- Where each lane has been given so many bytes, the first lane that the next chunk
costs least on has both keys of its pair of regions, and so on for the others. -/
def Routed (caps : ProviderId → ProviderCaps) (lanes : List (Lane ℚ)) :
    List (Segment × Nat) → (Nat → Nat) → Prop
  | [], _ => True
  | (seg, n) :: rest, given => ∃ k lane, FirstLeast lanes (given ·) n k ∧ lanes[k]? = some lane ∧
      Keyed (caps lane.provider).name seg.region seg.remote ∧
      Routed caps lanes rest (Function.update given k (given k + n))

/-- The segment that a pair of views names, if its regions are found and in use and
it is in range and permitted. -/
def reach (look : Lookup Id) (kind : SubOpKind) (peer : PeerId) (l r : RegionView) :
    Option Segment :=
  match (look.findRegion l.region).run, (look.findRemote peer r.region).run with
  | some lr, some (ptr, desc) =>
    if (look.retired lr.id).run = false ∧ (look.valid ptr).run = true ∧
        (checkSegment kind ⟨lr, desc, l.span, r.span⟩).isOk = true then
      some ⟨lr, desc, l.span, r.span⟩
    else none
  | _, _ => none

/-- The segments before the first pair of views that names none. -/
def reached (look : Lookup Id) (kind : SubOpKind) (peer : PeerId) :
    List RegionView → List RegionView → List Segment
  | l :: ls, r :: rs =>
    match reach look kind peer l r with
    | some seg => seg :: reached look kind peer ls rs
    | none => []
  | _, _ => []

omit [LaneCost W] in
theorem effectiveChunk_limit (caps : ProviderId → ProviderCaps) (lanes : List (Lane W))
    (chunkBytes : Nat) :
    ChunkLimit caps lanes chunkBytes (effectiveChunk caps lanes chunkBytes) := by
  constructor
  · induction lanes generalizing chunkBytes with
    | nil => exact .inl rfl
    | cons l rest ih =>
      rcases ih (if 0 < (caps l.provider).maxSegmentBytes ∧
        (caps l.provider).maxSegmentBytes < chunkBytes
        then (caps l.provider).maxSegmentBytes else chunkBytes) with same | ⟨pos, lane, mem, is⟩
      · change effectiveChunk caps rest _ = _ at same
        change effectiveChunk caps rest _ ∈ _
        rw [same]
        split
        · rename_i shorter
          exact .inr ⟨shorter.1, l, List.mem_cons_self, rfl⟩
        · exact .inl rfl
      · exact .inr ⟨pos, lane, List.mem_cons_of_mem _ mem, is⟩
  · rintro n (rfl | ⟨pos, lane, mem, rfl⟩)
    · exact effectiveChunk_le caps lanes _
    · exact effectiveChunk_le_lane caps lanes _ mem pos.ne'

theorem pieces_cons {c length : Nat} (pos : 0 < c) (some_left : 0 < length) :
    pieces c length = min length c :: pieces c (length - min length c) := by
  by_cases whole : c ≤ length
  · rw [min_eq_right whole, pieces, pieces, Nat.div_eq_sub_div pos whole, List.replicate_succ,
      Nat.mod_eq_sub_mod whole, List.cons_append]
  · have short : length < c := Nat.lt_of_not_le whole
    rw [min_eq_left short.le, Nat.sub_self]
    simp [pieces, Nat.div_eq_of_lt short, Nat.mod_eq_of_lt short, some_left.ne']

section
variable {g : Plan ℚ} {assigned : List ℚ} {given : Nat → Nat}

/-- The bytes counted for each lane are those it has been given. -/
structure Counted (g : Plan ℚ) (assigned : List ℚ) (given : Nat → Nat) : Prop where
  lanes : assigned.length = g.lanes.length
  bytes : ∀ k : Fin g.lanes.length, g.load assigned k = given k

theorem Counted.push (counted : Counted g assigned given) (k : Fin g.lanes.length) (n : Nat) :
    Counted g (assigned.modify k (LaneCost.add · (LaneCost.ofBytes n)))
      (Function.update given k (given k + n)) := by
  refine ⟨by simpa using counted.lanes, fun j => ?_⟩
  rw [load_modify counted.lanes k, counted.bytes]
  by_cases this : j = k
  · subst this
    simp
  · rw [Function.update_of_ne this, Function.update_of_ne (fun same => this (Fin.ext same)),
      counted.bytes]

/-- The next chunk goes to the lane that it costs least on. -/
theorem Counted.firstLeast (counted : Counted g assigned given) (some_lane : g.lanes ≠ [])
    (n : Nat) : FirstLeast g.lanes (given ·) n (chooseLane g.lanes assigned n) :=
  (chooseLane_firstLeast n some_lane counted.lanes).congr fun j hj => counted.bytes ⟨j, hj⟩

/-- It is routed as it is placed. -/
theorem Counted.routed_cons (counted : Counted g assigned given) (some_lane : g.lanes ≠ [])
    (seg : Segment) (n : Nat) (rest : List (Segment × Nat)) :
    Routed g.caps g.lanes ((seg, n) :: rest) given ↔
      Keyed (g.laneName (chooseLane g.lanes assigned n)) seg.region seg.remote ∧
      Routed g.caps g.lanes rest (Function.update given (chooseLane g.lanes assigned n)
        (given (chooseLane g.lanes assigned n) + n)) := by
  obtain ⟨lane, here, -⟩ := counted.firstLeast some_lane n
  have chosen := counted.firstLeast some_lane n
  have name : g.laneName (chooseLane g.lanes assigned n) = (g.caps lane.provider).name := by
    simp [Plan.laneName, here]
  rw [name]
  constructor
  · rintro ⟨k, lane', least, there, keyed, later⟩
    obtain rfl := least.unique chosen
    cases here.symm.trans there
    exact ⟨keyed, later⟩
  · rintro ⟨keyed, later⟩
    exact ⟨_, lane, chosen, here, keyed, later⟩

/-- A segment's chunks are all placed where every one goes to a lane with the keys,
and the segment is turned away where one does not. -/
theorem chunkLoop_route (some_lane : g.lanes ≠ []) (pos : 0 < g.chunk) (seg : Segment)
    (fuel off : Nat) (enough : seg.localSpan.length - off ≤ fuel) (b : Build ℚ)
    (counted : Counted g b.assigned given) :
    (∃ b' given', chunkLoop g seg fuel off b = .ok b' ∧ Counted g b'.assigned given' ∧
      ∀ rest, Routed g.caps g.lanes
        ((pieces g.chunk (seg.localSpan.length - off)).map (seg, ·) ++ rest) given ↔
          Routed g.caps g.lanes rest given') ∨
    chunkLoop g seg fuel off b = .error .unsupported ∧
      ∀ rest, ¬Routed g.caps g.lanes
        ((pieces g.chunk (seg.localSpan.length - off)).map (seg, ·) ++ rest) given := by
  induction fuel generalizing off b given with
  | zero =>
    have none : seg.localSpan.length - off = 0 := Nat.le_zero.mp enough
    exact .inl ⟨b, given, rfl, counted, by simp [none, pieces]⟩
  | succ fuel ih =>
    simp only [chunkLoop]
    by_cases more : off < seg.localSpan.length
    case neg =>
      have none : seg.localSpan.length - off = 0 := Nat.sub_eq_zero_of_le (Nat.le_of_not_lt more)
      rw [if_neg more]
      exact .inl ⟨b, given, rfl, counted, by simp [none, pieces]⟩
    rw [if_pos more, pieces_cons pos (Nat.sub_pos_of_lt more), Nat.sub_sub]
    simp only [List.map_cons, List.cons_append, counted.routed_cons some_lane]
    set n := min (seg.localSpan.length - off) g.chunk with hn
    have pushed := counted.push ⟨_, chooseLane_lt n some_lane counted.lanes⟩ n
    split
    · rename_i none
      exact .inr ⟨rfl, fun rest routed => by simp [Keyed, none] at routed⟩
    rename_i lkey here
    split
    · rename_i none
      exact .inr ⟨rfl, fun rest routed => by simp [Keyed, none] at routed⟩
    rename_i rkey there
    have keyed : Keyed (g.laneName (chooseLane g.lanes b.assigned n)) seg.region seg.remote := by
      simp [Keyed, here, there]
    simp only [keyed, true_and]
    exact ih (off + n) (by omega) _ pushed

end

theorem checkSegment_ne_unsupported (kind : SubOpKind) (seg : Segment) :
    checkSegment kind seg ≠ .error .unsupported := by
  unfold checkSegment
  intro refused
  split at refused; · cases refused
  split at refused; · cases refused
  split at refused; · cases refused
  split at refused <;> cases refused

variable {look : Lookup Id} {g : Plan W} {peer : PeerId}

/-- A pair of views that names no segment is turned away, but not for want of a
key. -/
theorem buildLoop_reach_none {l r : RegionView} (none : reach look g.kind peer l r = none)
    (ls rs : List RegionView) (b : Build W) :
    (buildLoop look g peer (l :: ls) (r :: rs) b).run ≠ .error .unsupported := by
  intro refused
  simp only [buildLoop, bind, pure, Id.run] at refused
  split at refused; · cases refused
  rename_i lr here
  split at refused; · cases refused
  rename_i live
  split at refused; · cases refused
  rename_i ptr desc there
  split at refused
  · rename_i valid
    simp only [splitSegment] at refused
    cases checked : checkSegment g.kind ⟨lr, desc, l.span, r.span⟩ with
    | error s =>
      simp only [checked] at refused
      cases refused
      exact checkSegment_ne_unsupported _ _ checked
    | ok =>
      simp [reach, Id.run, here, there, live, valid, checked, Except.isOk, Except.toBool] at none
  · cases refused

theorem buildLoop_reach_some {l r : RegionView} {seg : Segment}
    (found : reach look g.kind peer l r = some seg) (ls rs : List RegionView) (b : Build W) :
    (buildLoop look g peer (l :: ls) (r :: rs) b).run =
      (chunkLoop g seg seg.localSpan.length 0
        { b with
          held := b.held ++ [seg.region.id]
          total := u64 (b.total + seg.localSpan.length) }).bind
        fun b' => (buildLoop look g peer ls rs b').run := by
  simp only [reach, Id.run] at found
  split at found
  case h_2 => cases found
  rename_i lr ptr desc here there
  split at found
  case isFalse => cases found
  rename_i passed
  obtain ⟨live, valid, checked⟩ := passed
  cases found
  simp only [buildLoop, bind, pure, Id.run, here, there, live, valid, splitSegment]
  cases accepted : checkSegment g.kind ⟨lr, desc, l.span, r.span⟩ with
  | error s => simp [accepted, Except.isOk, Except.toBool] at checked
  | ok =>
    cases chunkLoop g ⟨lr, desc, l.span, r.span⟩ l.span.length 0
      { b with held := b.held ++ [lr.id], total := u64 (b.total + l.span.length) } <;> rfl

theorem buildLoop_route {g : Plan ℚ} (some_lane : g.lanes ≠ []) (pos : 0 < g.chunk)
    (look : Lookup Id) (peer : PeerId) (loc remote : List RegionView) (b : Build ℚ)
    {given : Nat → Nat} (counted : Counted g b.assigned given) :
    (buildLoop look g peer loc remote b).run ≠ .error .unsupported ↔
      Routed g.caps g.lanes (chunks g.chunk (reached look g.kind peer loc remote)) given := by
  induction loc generalizing remote b given with
  | nil => exact iff_of_true (by rintro ⟨⟩) trivial
  | cons l ls ih =>
    obtain - | ⟨r, rs⟩ := remote
    · exact iff_of_true (by rintro ⟨⟩) trivial
    cases found : reach look g.kind peer l r with
    | none =>
      simp only [reached, found]
      exact iff_of_true (buildLoop_reach_none found ls rs b) trivial
    | some seg =>
      rw [buildLoop_reach_some found]
      simp only [reached, found, chunks, List.flatMap_cons]
      rcases chunkLoop_route some_lane pos seg seg.localSpan.length 0 (Nat.sub_le _ _)
          { b with
            held := b.held ++ [seg.region.id]
            total := u64 (b.total + seg.localSpan.length) } counted with
        ⟨b', given', ok, counted, routed⟩ | ⟨refused, unrouted⟩
      · rw [ok]
        exact (ih rs b' counted).trans (routed _).symm
      · rw [refused]
        exact iff_of_false (not_not.mpr rfl) (unrouted _)

/-! ## The keys of what is placed -/

theorem buildLoop_carries {loc remote : List RegionView} {b b' : Build W} {k : Nat}
    (run : (buildLoop look g peer loc remote b).run = .ok b') (mem : op ∈ b'.onLane k) :
    op ∈ b.onLane k ∨ ∃ lr desc, Paired look peer loc remote lr desc ∧
      Carries (g.laneName k) lr desc op := by
  refine buildLoop_rule (I := fun b' => op ∈ b'.onLane k → op ∈ b.onLane k ∨ _) run .inl
    (fun _ _ _ same => same) ?_ mem
  intro x hx lr ptr desc here there _ b₁ op' piece before now
  rcases mem_onLane_modify now with old | ⟨rfl, rfl⟩
  · exact before old
  · exact .inr ⟨lr, desc, ⟨x, hx, here, ptr, there⟩, piece.localKey, piece.remoteKey⟩

theorem buildSubops_unsupported (caps : ProviderId → ProviderCaps) (chunkBytes : Nat)
    {loc remote : List RegionView} (kind : SubOpKind) (req : RequestId) {lanes : List (Lane W)}
    (nonempty : lanes ≠ []) :
    (buildLoop look ⟨kind, req, lanes, caps, effectiveChunk caps lanes chunkBytes⟩ peer loc remote
        (Build.start lanes)).run ≠ .error .unsupported ↔
      (buildSubops look caps chunkBytes peer loc remote kind req lanes).run ≠
        .error .unsupported := by
  simp only [buildSubops, bind, pure, Id.run, List.isEmpty_iff, if_neg nonempty]
  cases buildLoop look ⟨kind, req, lanes, caps, effectiveChunk caps lanes chunkBytes⟩ peer loc
      remote (Build.start lanes) with
  | error s => simp only [ne_eq, Except.error.injEq]
  | ok b =>
    refine iff_of_true (by rintro ⟨⟩) ?_
    dsimp only
    split
    · rintro ⟨⟩
    · split <;> rintro ⟨⟩

/-- Two transports, the second of twice the weight. -/
def tenBytesLanes : List (Lane ℚ) := [⟨0, some 0, 1⟩, ⟨1, some 1, 2⟩]

/-- The ten bytes where the second transport refused them at either end. -/
def tenBytesOnce : Lookup Id where
  findRegion _ := some { tenBytesHere with
    reg := ⟨4096, 10, ⟨0, 0⟩, AccessFlags.localWrite, [⟨[0], 3, 3⟩], 3, 3⟩ }
  retired _ := false
  findRemote _ _ := some (0, { tenBytesThere with providerKeys := [⟨[0], 5⟩] })
  valid _ := true

end Hux
