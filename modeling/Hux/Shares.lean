import Mathlib.Tactic.NormNum
import Hux.Chunking

/-!
# Shares of the lanes

How `build_subops` spreads a transfer over its lanes, in exact numbers.

* `Balanced`: no load is ahead of another, in proportion, by more than one piece;
* `lane_shares_follow_weights`: the lanes end so, with the weights they have.
-/

namespace Hux

/-! ## Loads -/

section
variable {ι K : Type} [Field K] [LinearOrder K] [IsStrictOrderedRing K]

/-- What has been put anywhere is, in proportion, at most a piece more than any other
load. -/
def Balanced (weight load : ι → K) (piece : K) : Prop :=
  ∀ i j, 0 < load i → load i / weight i ≤ (load j + piece) / weight j

variable [DecidableEq ι] {weight load : ι → K} {piece n : K} {i : ι}

theorem le_update_add (more : 0 ≤ n) (j : ι) : load j ≤ Function.update load i (load i + n) j := by
  by_cases same : j = i
  · subst same
    rw [Function.update_self]
    exact le_add_of_nonneg_right more
  · rw [Function.update_of_ne same]

/-- A piece put where it costs least keeps the loads balanced. -/
theorem Balanced.place (balanced : Balanced weight load piece) (positive : ∀ j, 0 < weight j)
    (more : 0 ≤ n) (small : n ≤ piece)
    (least : ∀ j, (load i + n) / weight i ≤ (load j + n) / weight j) :
    Balanced weight (Function.update load i (load i + n)) piece := by
  intro a b given
  have grown : load b ≤ Function.update load i (load i + n) b := le_update_add more b
  have room : (load b + piece) / weight b ≤
      (Function.update load i (load i + n) b + piece) / weight b :=
    div_le_div_of_nonneg_right (by gcongr) (positive b).le
  by_cases same : a = i
  · subst same
    rw [Function.update_self]
    calc (load a + n) / weight a ≤ (load b + n) / weight b := least b
      _ ≤ (load b + piece) / weight b :=
        div_le_div_of_nonneg_right (by gcongr) (positive b).le
      _ ≤ _ := room
  · rw [Function.update_of_ne same] at given ⊢
    exact (balanced a b given).trans room

end

/-! ## The cheapest lane -/

/-- The weight a lane counts with. -/
def Lane.share (l : Lane ℚ) : ℚ := if 0 < l.weight then l.weight else 1 / 1000000000

theorem Lane.share_pos (l : Lane ℚ) : 0 < l.share := by
  unfold Lane.share
  split
  · assumption
  · norm_num

theorem laneCost_eq (l : Lane ℚ) (assigned : ℚ) (n : Nat) :
    laneCost l assigned n = (assigned + n) / l.share := by
  have same :
      (if LaneCost.lt LaneCost.zero l.weight then l.weight else LaneCost.tiny) = l.share := by
    change (if decide (0 < l.weight) = true then l.weight else 1 / 1000000000) = l.share
    simp only [decide_eq_true_eq]
    rfl
  rw [laneCost, same]
  rfl

/-- The first lane on which `n` more bytes cost least, in proportion to its weight. -/
def FirstLeast (lanes : List (Lane ℚ)) (given : Nat → ℚ) (n k : Nat) : Prop :=
  ∃ lane, lanes[k]? = some lane ∧ ∀ (j : Nat) other, lanes[j]? = some other →
    (given k + n) / lane.share ≤ (given j + n) / other.share ∧
    (j < k → (given k + n) / lane.share < (given j + n) / other.share)

theorem FirstLeast.unique {lanes : List (Lane ℚ)} {given : Nat → ℚ} {n j k : Nat}
    (h : FirstLeast lanes given n j) (h' : FirstLeast lanes given n k) : j = k := by
  obtain ⟨lane, here, least⟩ := h
  obtain ⟨lane', here', least'⟩ := h'
  rcases Nat.lt_trichotomy j k with before | same | after
  · exact absurd ((least' j lane here).2 before) (not_lt.mpr (least k lane' here').1)
  · exact same
  · exact absurd ((least k lane' here').2 after) (not_lt.mpr (least' j lane here).1)

theorem FirstLeast.congr {lanes : List (Lane ℚ)} {given given' : Nat → ℚ} {n k : Nat}
    (h : FirstLeast lanes given n k) (same : ∀ j < lanes.length, given j = given' j) :
    FirstLeast lanes given' n k := by
  obtain ⟨lane, here, least⟩ := h
  refine ⟨lane, here, fun j other there => ?_⟩
  obtain ⟨hk, -⟩ := List.getElem?_eq_some_iff.mp here
  obtain ⟨hj, -⟩ := List.getElem?_eq_some_iff.mp there
  rw [← same k hk, ← same j hj]
  exact least j other there

/-- What the loop over the lanes ends with is what it began with, and costs no more
than any of them, or the first of them that costs least, and less than that. -/
theorem cheapest_first (n : Nat) (rest : List (Lane ℚ × ℚ)) (k : Nat) (best : Option (ℚ × Nat)) :
    ∀ b ∈ cheapest n rest k best,
      (b ∈ best ∧ ∀ x ∈ rest, b.1 ≤ laneCost x.1 x.2 n) ∨
      ∃ before x after, rest = before ++ x :: after ∧
        b = (laneCost x.1 x.2 n, k + before.length) ∧
        (∀ y ∈ before, b.1 < laneCost y.1 y.2 n) ∧ (∀ y ∈ after, b.1 ≤ laneCost y.1 y.2 n) ∧
        ∀ c ∈ best, b.1 < c.1 := by
  induction rest generalizing k best with
  | nil => exact fun b hb => .inl ⟨hb, by simp⟩
  | cons x rest ih =>
    intro b hb
    have later {old : ℚ × Nat} (dearer : old.1 ≤ laneCost x.1 x.2 n)
        (hb : b ∈ cheapest n rest (k + 1) (some old)) :
        (b = old ∧ ∀ y ∈ rest, b.1 ≤ laneCost y.1 y.2 n) ∨
        ∃ before y after, x :: rest = before ++ y :: after ∧
          b = (laneCost y.1 y.2 n, k + before.length) ∧
          (∀ y ∈ before, b.1 < laneCost y.1 y.2 n) ∧ (∀ y ∈ after, b.1 ≤ laneCost y.1 y.2 n) ∧
          b.1 < old.1 := by
      rcases ih (k + 1) _ b hb with ⟨same, least⟩ | ⟨before, y, after, rfl, is, first, least, less⟩
      · exact .inl ⟨(Option.some.inj same).symm, least⟩
      · have less := less old rfl
        refine .inr ⟨x :: before, y, after, rfl, ?_, ?_, least, less⟩
        · rw [is, List.length_cons, Nat.add_assoc, Nat.add_comm 1]
        · exact List.forall_mem_cons.mpr ⟨less.trans_le dearer, first⟩
    -- the lane looked at becomes the best
    have fresh (hb : b ∈ cheapest n rest (k + 1) (some (laneCost x.1 x.2 n, k)))
        (less : ∀ c ∈ best, laneCost x.1 x.2 n < c.1) :
        ∃ before y after, x :: rest = before ++ y :: after ∧
          b = (laneCost y.1 y.2 n, k + before.length) ∧
          (∀ y ∈ before, b.1 < laneCost y.1 y.2 n) ∧ (∀ y ∈ after, b.1 ≤ laneCost y.1 y.2 n) ∧
          ∀ c ∈ best, b.1 < c.1 := by
      rcases later le_rfl hb with ⟨rfl, least⟩ | ⟨before, y, after, is, b_is, first, least, under⟩
      · exact ⟨[], x, rest, rfl, rfl, by simp, least, less⟩
      · exact ⟨before, y, after, is, b_is, first, least, fun c hc => under.trans (less c hc)⟩
    cases best with
    | none => exact .inr (fresh hb (by simp))
    | some old =>
      obtain ⟨c, lane⟩ := old
      simp only [cheapest] at hb
      split at hb
      · rename_i cheaper
        refine .inr (fresh hb fun d hd => ?_)
        rw [← Option.some.inj hd]
        exact of_decide_eq_true cheaper
      · rename_i dearer
        have dearer : c ≤ laneCost x.1 x.2 n := not_lt.mp fun h => dearer (decide_eq_true h)
        rcases later dearer hb with ⟨rfl, least⟩ | ⟨before, y, after, is, b_is, first, least, under⟩
        · exact .inl ⟨rfl, List.forall_mem_cons.mpr ⟨dearer, least⟩⟩
        · refine .inr ⟨before, y, after, is, b_is, first, least, fun d hd => ?_⟩
          rwa [← Option.some.inj hd]

theorem cheapest_ne_none (n : Nat) (rest : List (Lane ℚ × ℚ)) (k : Nat) (best : ℚ × Nat) :
    cheapest n rest k (some best) ≠ none := by
  induction rest generalizing k best with
  | nil => simp [cheapest]
  | cons x rest ih =>
    simp only [cheapest]
    split
    · exact ih _ _
    · exact ih _ _

variable {assigned : List ℚ}

theorem zip_getElem? {lanes : List (Lane ℚ)} (same : assigned.length = lanes.length) {k : Nat}
    (hk : k < lanes.length) : (lanes.zip assigned)[k]? = some (lanes[k], assigned.getD k 0) := by
  have hk' : k < assigned.length := by omega
  rw [List.getElem?_eq_getElem (by simp; omega), List.getElem_zip, List.getD_eq_getElem?_getD,
    List.getElem?_eq_getElem hk', Option.getD_some]

/-- A piece is given to the first lane it costs least on. -/
theorem chooseLane_firstLeast {lanes : List (Lane ℚ)} (n : Nat) (some_lane : lanes ≠ [])
    (same : assigned.length = lanes.length) :
    FirstLeast lanes (assigned.getD · 0) n (chooseLane lanes assigned n) := by
  cases found : cheapest n (lanes.zip assigned) 0 none with
  | none =>
    cases pairs : lanes.zip assigned with
    | nil =>
      have none := congrArg List.length pairs
      rw [List.length_zip, same, min_self] at none
      exact absurd (List.length_eq_zero_iff.mp none) some_lane
    | cons x rest =>
      rw [pairs] at found
      exact absurd found (cheapest_ne_none _ _ _ _)
  | some b =>
    rcases cheapest_first n (lanes.zip assigned) 0 none b found with
      ⟨none, -⟩ | ⟨before, x, after, pairs, rfl, first, least, -⟩
    · cases none
    have lane : chooseLane lanes assigned n = before.length := by simp [chooseLane, found]
    have hk : before.length < lanes.length := by
      have := congrArg List.length pairs
      simp at this
      omega
    have here := zip_getElem? same hk
    simp only [pairs, List.getElem?_append_right, le_refl, Nat.sub_self, List.getElem?_cons_zero,
      Option.some.injEq] at here
    rw [lane]
    refine ⟨lanes[before.length], List.getElem?_eq_getElem hk, fun j other hj => ?_⟩
    obtain ⟨inside, rfl⟩ := List.getElem?_eq_some_iff.mp hj
    have there := zip_getElem? same inside
    rw [pairs] at there
    simp only [here, laneCost_eq] at first least
    rcases Nat.lt_trichotomy j before.length with earlier | rfl | later
    · rw [List.getElem?_append_left earlier] at there
      have less := first _ (List.mem_of_getElem? there)
      exact ⟨less.le, fun _ => less⟩
    · exact ⟨le_rfl, fun h => absurd h (lt_irrefl _)⟩
    · rw [List.getElem?_append_right later.le, List.getElem?_cons, if_neg (by omega)] at there
      have dearer := least _ (List.mem_of_getElem? there)
      exact ⟨dearer, fun h => absurd h (Nat.lt_asymm later)⟩

/-! ## Every lane -/

/-- What a lane has been given, in bytes. -/
def bytesOf (ops : List SubOp) : Nat := (ops.map (·.length)).sum

/-- What a lane of a plan counts as carrying. -/
def Plan.load (g : Plan ℚ) (assigned : List ℚ) (k : Fin g.lanes.length) : ℚ := assigned.getD k 0

/-- The lanes are balanced, and what is counted for each is what it has been given. -/
structure Fair (g : Plan ℚ) (b : Build ℚ) : Prop where
  lanes : b.out.length = g.lanes.length
  assigned : b.assigned = b.out.map fun ops => (bytesOf ops : ℚ)
  balanced : Balanced (fun k : Fin g.lanes.length => (g.lanes[k]).share) (g.load b.assigned) g.chunk

theorem fair_start (g : Plan ℚ) : Fair g (Build.start g.lanes) where
  lanes := by simp [Build.start]
  assigned := by simp [Build.start, bytesOf, LaneCost.zero]
  balanced := by
    intro i j given
    have none : g.load (Build.start g.lanes).assigned i = 0 := by
      simp [Plan.load, Build.start, LaneCost.zero]
    rw [none] at given
    exact absurd given (lt_irrefl 0)

variable {g : Plan ℚ}

theorem load_modify (same : assigned.length = g.lanes.length) (lane : Fin g.lanes.length)
    (n : Nat) :
    g.load (assigned.modify lane (LaneCost.add · (LaneCost.ofBytes n))) =
      Function.update (g.load assigned) lane (g.load assigned lane + n) := by
  funext k
  have hk : (k : Nat) < assigned.length := by omega
  by_cases eq : k = lane
  · subst eq
    rw [Function.update_self]
    simp [Plan.load, List.getD_eq_getElem?_getD, hk, LaneCost.add, LaneCost.ofBytes]
  · rw [Function.update_of_ne eq]
    have ne : (lane : Nat) ≠ k := fun h => eq (Fin.ext h.symm)
    simp [Plan.load, List.getD_eq_getElem?_getD, hk, ne]

variable {b : Build ℚ}

/-- The next piece goes to the cheapest lane. -/
theorem Fair.push (fair : Fair g b) (some_lane : g.lanes ≠ []) {op : SubOp}
    (small : op.length ≤ g.chunk) : Fair g (b.push g op) := by
  have same : b.assigned.length = g.lanes.length := by
    rw [fair.assigned, List.length_map, fair.lanes]
  have chosen := chooseLane_lt op.length some_lane same
  refine ⟨by simpa [Build.push] using fair.lanes, ?_, ?_⟩
  · dsimp only [Build.push]
    rw [fair.assigned]
    apply List.ext_getElem
    · simp
    · intro k hk hk'
      simp only [List.getElem_modify, List.getElem_map]
      split
      · simp [bytesOf, LaneCost.add, LaneCost.ofBytes]
      · rfl
  · dsimp only [Build.push]
    rw [load_modify same ⟨_, chosen⟩]
    refine fair.balanced.place (fun k => Lane.share_pos _) (Nat.cast_nonneg _) ?_ fun k => ?_
    · exact_mod_cast small
    · obtain ⟨lane, here, least⟩ := chooseLane_firstLeast op.length some_lane same
      obtain ⟨_, rfl⟩ := List.getElem?_eq_some_iff.mp here
      exact (least k _ (List.getElem?_eq_getElem k.isLt)).1

theorem Fair.hold (fair : Fair g b) (held : List RegionId) (total : Nat) :
    Fair g { b with held := held, total := total } :=
  ⟨fair.lanes, fair.assigned, fair.balanced⟩

theorem buildLoop_fair {look : Lookup Id} {peer : PeerId} (some_lane : g.lanes ≠ [])
    {loc remote : List RegionView} {b' : Build ℚ} (fair : Fair g b)
    (run : (buildLoop look g peer loc remote b).run = .ok b') : Fair g b' :=
  buildLoop_rule run fair (fun _ held total fair => fair.hold held total)
    fun _ _ _ _ _ _ _ _ _ _ piece fair => fair.push some_lane piece.small

/-- No lane that was given anything is ahead of another, in proportion to their weights, by
more than one chunk. -/
theorem lane_shares_follow_weights (look : Lookup Id) (caps : ProviderId → ProviderCaps)
    (chunkBytes : Nat) (peer : PeerId) (loc remote : List RegionView) (kind : SubOpKind)
    (req : RequestId) (lanes : List (Lane ℚ)) (built : Built)
    (ok : (buildSubops look caps chunkBytes peer loc remote kind req lanes).run = .ok built)
    (i j : Fin lanes.length) (given : 0 < bytesOf (built.perLane.getD i [])) :
    (bytesOf (built.perLane.getD i []) : ℚ) / (lanes[i]).share ≤
      (bytesOf (built.perLane.getD j []) + effectiveChunk caps lanes chunkBytes) /
        (lanes[j]).share := by
  obtain ⟨some_lane, b, perLane, run⟩ := buildSubops_ok ok
  have fair := buildLoop_fair some_lane (fair_start _) run
  have load (k : Fin lanes.length) :
      Plan.load ⟨kind, req, lanes, caps, effectiveChunk caps lanes chunkBytes⟩ b.assigned k =
        bytesOf (built.perLane.getD k []) := by
    have hk : (k : Nat) < b.out.length := by rw [fair.lanes]; exact k.isLt
    simp [Plan.load, fair.assigned, perLane, List.getD_eq_getElem?_getD, hk]
  have balanced := fair.balanced i j
  rw [load, load] at balanced
  exact balanced (by exact_mod_cast given)

/-- Ten bytes over two lanes of weights one and two: four and six. -/
theorem lane_shares_follow_weights_ten_bytes :
    (bytesOf (tenBytesBuilt.perLane.getD 1 []) : ℚ) / 2 ≤
      (bytesOf (tenBytesBuilt.perLane.getD 0 []) + 4) / 1 := by
  have shares := lane_shares_follow_weights tenBytes (fun p => ⟨[p.toUInt8], 0⟩) 4 0
    [⟨1, ⟨0, 10⟩⟩] [⟨7, ⟨0, 10⟩⟩] .read 9 [⟨0, some 0, 1⟩, ⟨1, some 1, 2⟩] tenBytesBuilt
    (by decide +kernel) 1 0 (by decide)
  simpa [Lane.share, effectiveChunk] using shares

end Hux
