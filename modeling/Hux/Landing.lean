import Hux.Completions

/-!
# Writes that may have landed

A reliable queue pair executes its work requests in order until one fails, and flushes
those after it. A failure is reported for every work request before it that no
completion has retired, executed or not, and what is reported about the target depends
on the status of the failure alone. So a write that has landed is reported as one that
has not exactly where such a status retires it (`History.Covered`).
-/

namespace Hux.Rdma
open Interleave (Tid Pool Run)

/-! ## What the adapter did -/

/-- A queue pair's work requests as far as the adapter is done with them, and the first
of them that failed. -/
structure History where
  requests : List WorkRequest
  fails : Option (Nat × WcStatus)
  unsuccessful : ∀ f ∈ fails, f.2 ≠ .success

namespace History

def isWrite (h : History) (n : Nat) : Bool := h.requests[n]?.any (·.opcode = .rdmaWrite)

def signalled (h : History) (n : Nat) : Bool := h.requests[n]?.any (·.signalled)

/-- The status a work request completes with, if it does: a success only if it was
signalled. -/
def outcome (h : History) (n : Nat) : Option WcStatus :=
  let executed := if h.signalled n then some .success else none
  match h.fails with
  | none => executed
  | some (f, st) => if n < f then executed else if n = f then some st else some .wrFlushErr

def completions (h : History) : List (Nat × WcStatus) :=
  (List.range h.requests.length).filterMap fun n => (h.outcome n).map (n, ·)

/-- Statuses with which the failing work request itself has changed nothing. -/
def untouching : List WcStatus := [.locProtErr, .locLenErr]

/-- A write that was executed, or may have been in part. -/
def Touches (h : History) (n : Nat) : Prop :=
  h.isWrite n = true ∧ ∀ f ∈ h.fails, n < f.1 ∨ n = f.1 ∧ f.2 ∉ untouching

/-- Statuses that `status_from_wc` takes for failures that have not modified the
target. -/
def sparing : List WcStatus :=
  [.retryExcErr, .rnrRetryExcErr, .wrFlushErr, .locProtErr, .locLenErr]

/-- If the failure has such a status, each write before it was retired by an earlier
success, and the failing one is no write or has changed nothing. -/
def Covered (h : History) : Prop :=
  ∀ f ∈ h.fails, f.1 < h.requests.length → f.2 ∈ sparing →
    (∀ n < f.1, h.isWrite n = true → ∃ m < f.1, n ≤ m ∧ h.signalled m = true) ∧
      (h.isWrite f.1 = true → f.2 ∈ untouching)

instance (h : History) (n : Nat) : Decidable (h.Touches n) := by
  unfold Touches
  infer_instance

/-- `Covered` for one failure, as a test. -/
def coveredAt (h : History) (f : Nat × WcStatus) : Bool :=
  !(decide (f.1 < h.requests.length) && decide (f.2 ∈ sparing)) ||
    ((List.range f.1).all fun n =>
      !h.isWrite n || (List.range f.1).any fun m => decide (n ≤ m) && h.signalled m) &&
        (!h.isWrite f.1 || decide (f.2 ∈ untouching))

theorem coveredAt_iff (h : History) : h.fails.all h.coveredAt = true ↔ h.Covered := by
  unfold Covered
  cases h.fails with
  | none => simp
  | some f =>
    simp only [Option.all_some, Option.mem_def, Option.some.injEq, forall_eq', coveredAt]
    simp [imp_iff_not_or, or_assoc]

instance (h : History) : Decidable h.Covered := decidable_of_iff _ h.coveredAt_iff

variable {h : History} {n : Nat} {st : WcStatus}

/-- The first completion at or after a work request. -/
theorem find?_completions {m : Nat} :
    h.completions.find? (n ≤ ·.1) = some (m, st) ↔
      m < h.requests.length ∧ n ≤ m ∧ h.outcome m = some st ∧
        ∀ j < m, n ≤ j → h.outcome j = none := by
  have here (a : Nat) : ((h.outcome a).map (a, ·)).any (n ≤ ·.1) = true ↔
      n ≤ a ∧ h.outcome a ≠ none := by
    cases h.outcome a <;> simp
  unfold completions
  rw [List.find?_filterMap, Option.bind_eq_some_iff]
  constructor
  · rintro ⟨a, first, out⟩
    obtain ⟨st', outcome, eq⟩ := Option.map_eq_some_iff.mp out
    cases eq
    obtain ⟨hit, range, before⟩ := List.find?_range_eq_some.mp first
    refine ⟨List.mem_range.mp range, ((here m).mp hit).1, outcome, fun j below le => ?_⟩
    by_contra some_
    have missed := before j below
    rw [(here j).mpr ⟨le, some_⟩] at missed
    cases missed
  · rintro ⟨range, le, outcome, before⟩
    refine ⟨m, List.find?_range_eq_some.mpr ⟨?_, List.mem_range.mpr range, fun j below => ?_⟩, ?_⟩
    · exact (here m).mpr ⟨le, by simp [outcome]⟩
    · cases hit : ((h.outcome j).map (j, ·)).any (n ≤ ·.1) with
      | false => rfl
      | true =>
        obtain ⟨le, some_⟩ := (here j).mp hit
        exact absurd (before j below le) some_
    · rw [outcome]
      rfl

theorem outcome_failing {f : Nat} (fails : h.fails = some (f, st)) : h.outcome f = some st := by
  simp [outcome, fails]

theorem outcome_before {f : Nat} (fails : h.fails = some (f, st)) (before : n < f) :
    h.outcome n = if h.signalled n then some .success else none := by
  simp [outcome, fails, before]

/-- A status other than success is that of the failure, or of one after it. -/
theorem fails_of_outcome (out : h.outcome n = some st) (ne : st ≠ .success) :
    ∃ f st', h.fails = some (f, st') ∧ (n = f ∧ st = st' ∨ f < n) := by
  have executed : (if h.signalled n then some WcStatus.success else none) ≠ some st := by
    split
    · intro eq
      exact ne (Option.some.inj eq).symm
    · exact fun eq => by cases eq
  cases fails : h.fails with
  | none =>
    rw [outcome, fails] at out
    exact absurd out executed
  | some f =>
    obtain ⟨f, st'⟩ := f
    refine ⟨f, st', rfl, ?_⟩
    by_cases before : n < f
    · rw [outcome_before fails before] at out
      exact absurd out executed
    · by_cases same : n = f
      · subst same
        rw [outcome_failing fails] at out
        exact .inl ⟨rfl, (Option.some.inj out).symm⟩
      · exact .inr (by omega)

/-- Where every failure is covered, what retires a write that may have landed is a
success, or says that it may. -/
theorem Covered.found (covered : h.Covered) {m : Nat} (touches : h.Touches n)
    (found : h.completions.find? (n ≤ ·.1) = some (m, st)) : st = .success ∨ st ∉ sparing := by
  obtain ⟨inside, le, out, before⟩ := find?_completions.mp found
  by_contra neither
  push Not at neither
  obtain ⟨failure, spares⟩ := neither
  obtain ⟨f, st', fails, place⟩ := fails_of_outcome out failure
  obtain ⟨isWrite, reach⟩ := touches
  have upTo : n ≤ f := by
    rcases reach (f, st') fails with lt | eq
    · exact Nat.le_of_lt lt
    · exact Nat.le_of_eq eq.1
  rcases place with ⟨rfl, rfl⟩ | later
  · obtain ⟨retired, failing⟩ := covered (m, st) fails inside spares
    rcases reach (m, st) fails with lt | ⟨eq, touching⟩
    · obtain ⟨j, below, le, signalled⟩ := retired n lt isWrite
      have none_ := before j below le
      rw [outcome_before fails below, if_pos signalled] at none_
      cases none_
    · exact touching (failing (eq ▸ isWrite))
  · have none_ := before f later upTo
    rw [outcome_failing fails] at none_
    cases none_

/-- Where one is not, a write that may have landed is retired by it. -/
theorem exists_of_not_covered (uncovered : ¬ h.Covered) :
    ∃ n m st, h.Touches n ∧ st ≠ .success ∧ st ∈ sparing ∧
      h.completions.find? (n ≤ ·.1) = some (m, st) := by
  unfold Covered at uncovered
  push Not at uncovered
  obtain ⟨⟨f, st⟩, fails, inside, spares, uncovered⟩ := uncovered
  have other : ∀ f' ∈ h.fails, f' = (f, st) := fun f' hf' => Option.some.inj (hf'.symm.trans fails)
  have hit {n : Nat} (le : n ≤ f) (unsignalled : ∀ j < f, n ≤ j → h.signalled j = false) :
      h.completions.find? (n ≤ ·.1) = some (f, st) := by
    refine find?_completions.mpr ⟨inside, le, outcome_failing fails, fun j below le => ?_⟩
    rw [outcome_before fails below, unsignalled j below le]
    rfl
  by_cases retired : ∀ n < f, h.isWrite n = true → ∃ m < f, n ≤ m ∧ h.signalled m = true
  · obtain ⟨isWrite, touching⟩ := uncovered retired
    refine ⟨f, f, st, ⟨isWrite, fun f' hf' => ?_⟩, h.unsuccessful _ fails, spares,
      hit (Nat.le_refl f) fun j below le => absurd below (Nat.not_lt.mpr le)⟩
    rw [other f' hf']
    exact .inr ⟨rfl, touching⟩
  · push Not at retired
    obtain ⟨n, before, isWrite, unsignalled⟩ := retired
    refine ⟨n, f, st, ⟨isWrite, fun f' hf' => ?_⟩, h.unsuccessful _ fails, spares,
      hit (Nat.le_of_lt before) fun j below le => by simpa using unsignalled j below le⟩
    rw [other f' hf']
    exact .inl before

end History

/-- What is reported under a status about the target of a write. -/
theorem event_safe_iff {key : InflightKey} {w : Wc} (isWrite : key.isWrite = true) :
    ((key.event w).status = .ok ∨ (key.event w).mayHaveModifiedTarget = true) ↔
      w.status = .success ∨ w.status ∉ History.sparing := by
  have modified : (key.event w).mayHaveModifiedTarget = (statusFromWc w.status).2 := by
    simp [InflightKey.event, isWrite]
  rw [modified]
  change (statusFromWc w.status).1 = .ok ∨ _ ↔ _
  cases w.status <;> decide

/-! ## Work requests and operations -/

/-- Whether the work request taken and not yet listed is a write. -/
def Res.unlisted (i : Nat) : Res → List Bool
  | .sent _ p _ _ => if p.qpIndex = i then [p.op.kind == .write] else []
  | _ => []

/-- The work requests taken are the operations accepted, in order, by whether they
write. -/
def Kinds (k : Core) (c : ConnId) (x : Res) : Prop :=
  ∀ i q, (k.qps c)[i]? = some q →
    ((posted (k.sends q.num)).map fun wr => decide (wr.opcode = .rdmaWrite)) =
      (k.accepted c i).map (·.2.isWrite) ++ x.unlisted i

def KindsRest (k : Core) (c : ConnId) : Prop := Kinds k c (.holding c)

theorem isWrite_workRequest (p : Planned) (seq : Nat) :
    decide ((p.workRequest seq).opcode = .rdmaWrite) = (p.op.kind == .write) := by
  unfold Planned.workRequest
  cases p.op.kind <;> rfl

section
variable {cfg : RdmaConfig} {role : Role} {t : Tid} {k k' : Core} {F M M' : Multiset Res}
  {d : Dialled} {c : ConnId} {x x' : Res}

/-- A step that takes and accepts nothing. -/
theorem Kinds.still (before : Kinds k c x)
    (qps : ∀ (i : Nat) (q' : QueuePair), (k'.qps c)[i]? = some q' →
      ∃ q : QueuePair, (k.qps c)[i]? = some q ∧ q.num = q'.num)
    (sends : ∀ q ∈ k.qps c, posted (k'.sends q.num) = posted (k.sends q.num))
    (accepted : ∀ i, k'.accepted c i = k.accepted c i)
    (unlisted : ∀ i, x'.unlisted i = x.unlisted i) : Kinds k' c x' := by
  intro i q' there'
  obtain ⟨q, there, num⟩ := qps i q' there'
  rw [accepted, unlisted, ← num, sends q (List.mem_of_getElem? there)]
  exact before i q there

variable {rest : List Planned}

theorem Posting.unlisted (posting : Posting c x rest) (i : Nat) : x.unlisted i = [] := by
  cases posting <;> rfl

theorem Over.unlisted (done : Over c x) (i : Nat) : x.unlisted i = [] := by
  cases done with
  | holding => rfl
  | posting posting => exact posting.unlisted i

theorem Kinds.send {p : Planned} (before : Kinds k c x) (sections : Sections d k M) (hx : x ∈ M)
    (posting : Posting c x (p :: rest)) :
    Kinds (k.post (k.qp c p.qpIndex).num (p.workRequest (k.qp c p.qpIndex).posted)) c
      (.sent c p (k.qp c p.qpIndex).posted rest) := by
  obtain ⟨q₀, there₀⟩ :=
    sections.qp_of_lt (posting.inRange (sections.inRange x hx) p List.mem_cons_self)
  rw [Core.qp_eq there₀]
  intro i q there
  have was := before i q there
  rw [posting.unlisted, List.append_nil] at was
  change _ = (k.accepted c i).map _ ++ if p.qpIndex = i then _ else []
  rw [sections.posted_send there₀ there, List.map_append, was]
  by_cases here : p.qpIndex = i
  · rw [if_pos here, if_pos here, List.map_singleton, isWrite_workRequest]
  · rw [if_neg here, if_neg here, List.map_nil]

theorem Kinds.record {p : Planned} {seq : Nat} {postedAt : CcTime}
    (before : Kinds k c (.sent c p seq rest)) :
    Kinds (k.record c p seq postedAt) c (.sending c rest) := by
  intro i q' there'
  change _ = _ ++ []
  rw [List.append_nil]
  obtain ⟨q, there, ⟨-, rfl, rfl⟩ | ⟨elsewhere, rfl⟩⟩ := Core.of_qps_setQp there'
  · have was := before _ q there
    rw [Res.unlisted, if_pos rfl] at was
    rw [Core.accepted_record_own, List.map_append]
    exact was
  · have other : p.qpIndex ≠ i := fun same => elsewhere ⟨rfl, same.symm⟩
    have was := before i q' there
    rw [Res.unlisted, if_neg other, List.append_nil] at was
    rw [Core.accepted_record_other other]
    exact was

theorem Kinds.inner {o o' : Option Res} (sections : Sections d k (F + M)) (mem : ∀ x ∈ o, x ∈ M)
    (step : Inner cfg t M c k o k' o') (before : Guards KindsRest Kinds k c o) :
    Guards KindsRest Kinds k' c o' := by
  have same (i : Nat) (q : QueuePair) (there : (k.qps c)[i]? = some q) :
      ∃ q' : QueuePair, (k.qps c)[i]? = some q' ∧ q'.num = q.num := ⟨q, there, rfl⟩
  cases step with
  | lock | plan | open_ | miss | stop | skip =>
    exact Kinds.still before same (fun _ _ => rfl) (fun _ => rfl) fun _ => rfl
  | report =>
    exact Kinds.still before same (fun _ _ => rfl) (fun _ => Core.accepted_note rfl) fun _ => rfl
  | unlock done =>
    exact Kinds.still before same (fun _ _ => rfl) (fun _ => rfl) fun i => (done.unlisted i).symm
  | send posting =>
    exact Kinds.send before sections (Multiset.mem_add.mpr (.inr (mem _ rfl))) posting
  | record postedAt => exact Kinds.record before
  | refuse posting =>
    exact Kinds.still before same (fun _ _ => rfl) (fun _ => Core.accepted_note rfl)
      fun i => (posting.unlisted i).symm
  | pop front below =>
    refine Kinds.still before (fun i q' there' => ?_) (fun _ _ => rfl) (fun _ => rfl) fun _ => rfl
    obtain ⟨q, there, ⟨-, rfl, rfl⟩ | ⟨-, rfl⟩⟩ := Core.of_qps_setQp there'
    · exact ⟨q, there, rfl⟩
    · exact ⟨q', there, rfl⟩
  | @reclaim w ws x done =>
    have unlisted : ∀ i, x.unlisted i = [] := by cases done <;> exact fun _ => rfl
    refine Kinds.still before (fun i q' there' => ?_) (fun _ _ => rfl) (fun _ => rfl)
      fun i => (unlisted i).symm
    obtain ⟨q, there, ⟨-, rfl, rfl⟩ | ⟨-, rfl⟩⟩ := Core.of_qps_setQp there'
    · exact ⟨q, there, rfl⟩
    · exact ⟨q', there, rfl⟩

theorem Kinds.move (move : Move cfg role t k M k' M') (sections : Sections d k (F + M))
    (before : Guarded KindsRest Kinds k (F + M)) : Guarded KindsRest Kinds k' (F + M') := by
  have frame {c : ConnId} {x : Res} (untouched : Untouched k k' c) (h : Kinds k c x) :
      Kinds k' c x := by
    refine h.still (fun i q' there' => ?_) untouched.posted untouched.books.accepted fun _ => rfl
    exact ⟨q', untouched.qps ▸ there', rfl⟩
  refine before.move move sections (fun c untouched o h => ?_) fun c o o' step mem h => ?_
  · cases o with
    | none => exact frame untouched h
    | some x => exact frame untouched h
  · exact Kinds.inner sections mem step h

theorem Kinds.start {F : Type} (d : Dialled) (recv : ConnId → Option RecvBuffer)
    (receives : Nat → Nat) (regions : List (Nat × Mr)) (nextKey : Nat)
    (cc : CongestionController F) :
    Guarded KindsRest Kinds (World.start d recv receives regions nextKey cc).core 0 := by
  refine ⟨fun c _ i q there => rfl, fun x hx => by cases hx⟩

/-- An accepted operation is a write just if its work request is one. -/
theorem Kinds.isWrite (kinds : Guarded KindsRest Kinds k M) (sections : Sections d k M) {i n : Nat}
    {q : QueuePair} {key : InflightKey} (there : (k.qps c)[i]? = some q)
    (accepted : (k.accepted c i)[n]? = some (n, key)) :
    ((posted (k.sends q.num))[n]?.any fun wr => wr.opcode = .rdmaWrite) = key.isWrite := by
  have same : ∃ more, ((posted (k.sends q.num)).map fun wr => decide (wr.opcode = .rdmaWrite)) =
      (k.accepted c i).map (·.2.isWrite) ++ more := by
    cases h : k.locked c with
    | false => exact ⟨_, kinds.rest c h i q there⟩
    | true =>
      obtain ⟨x, hx, own⟩ := sections.holder h
      exact ⟨_, kinds.during x hx c own i q there⟩
  obtain ⟨more, same⟩ := same
  have bound := (List.getElem?_eq_some_iff.mp accepted).1
  have place := congrArg (·[n]?) same
  simp only [List.getElem?_map] at place
  rw [List.getElem?_append_left (by simpa using bound), List.getElem?_map, accepted] at place
  obtain ⟨wr, hwr, eq⟩ := Option.map_eq_some_iff.mp place
  rw [hwr]
  exact eq

end

/-! ## What is reported -/

/-- A queue pair has this history: it was given its work requests before any others, and
their completions are those that were drawn of it. -/
structure History.Shows {F : Type} (h : History) (s : World F) (q : QueuePair) : Prop where
  requests : h.requests <+: posted (s.adapter q.num).sends
  completions : ((s.arrived.filter fun w => w.transfer && w.qpNum = q.num).map fun w =>
    (wrSeq w.wrId, w.status)) = h.completions

section
variable {F : Type} {cfg : RdmaConfig} {d : Dialled} {M : Multiset Res} {s : World F} {c i n : Nat}
  {q : QueuePair} {h : History}

theorem History.Shows.came (shows : h.Shows s q) :
    ((s.core.came q.num).map fun w => (wrSeq w.wrId, w.status)) = h.completions := by
  rw [← came_core, shows.completions]

/-- What a reported write is reported with. -/
theorem History.Shows.of_reported (shows : h.Shows s q) (sections : Sections d s.core M)
    (accounts : Accounts cfg s.core M) (kinds : Guarded KindsRest Kinds s.core M)
    (there : (s.core.qps c)[i]? = some q) {ev : CompletionEvent}
    (reported : (n, ev) ∈ s.core.reported c i) (isWrite : h.isWrite n = true) :
    ∃ m st, h.completions.find? (n ≤ ·.1) = some (m, st) ∧
      (ev.status = .ok ∨ ev.mayHaveModifiedTarget = true ↔
        st = .success ∨ st ∉ History.sparing) := by
  obtain ⟨key, w, listed, first, event⟩ := accounts.told c i q there _ reported
  refine ⟨wrSeq w.wrId, w.status, ?_, ?_⟩
  · rw [← shows.came, List.find?_map]
    exact Option.map_eq_some_iff.mpr ⟨w, first, rfl⟩
  · rw [show ev = _ from event]
    apply event_safe_iff
    obtain ⟨x, atWork, -⟩ := accounts.atWork sections c
    obtain ⟨told, low, account, -⟩ := atWork.account i q there
    obtain ⟨n', place⟩ := List.getElem?_of_mem listed
    obtain rfl : n = n' := account.seq_eq place
    rw [← Kinds.isWrite kinds sections there place]
    obtain ⟨wr, taken, opcode⟩ := Option.any_eq_true _ _ |>.mp isWrite
    obtain ⟨more, all⟩ := shows.requests
    have same : (posted (s.core.sends q.num))[n]? = some wr := by
      change (posted (s.adapter q.num).sends)[n]? = some wr
      rw [← all, List.getElem?_append_left (List.getElem?_eq_some_iff.mp taken).1, taken]
    rw [same]
    exact opcode

/-- What a handled completion retires is reported. -/
theorem History.Shows.reported (shows : h.Shows s q) (sections : Sections d s.core M)
    (accounts : Accounts cfg s.core M) (there : (s.core.qps c)[i]? = some q)
    (handled : s.polling ++ s.verifying ++ s.stashed = []) {m : Nat} {st : WcStatus}
    (found : h.completions.find? (n ≤ ·.1) = some (m, st)) :
    ∃ ev, (n, ev) ∈ s.core.reported c i := by
  rw [← shows.came, List.find?_map, Option.map_eq_some_iff] at found
  obtain ⟨w, first, -⟩ := found
  obtain ⟨member, own⟩ := mem_ofQp.mp (List.mem_of_find?_eq_some first)
  obtain ⟨arrived, transfer⟩ := List.mem_filter.mp member
  have ge : n ≤ wrSeq w.wrId := by simpa using List.find?_some first
  obtain ⟨x, atWork, -⟩ := accounts.atWork sections c
  obtain ⟨told, low, account, -⟩ := atWork.account i q there
  simp only [List.append_eq_nil_iff] at handled
  obtain ⟨⟨polling, verifying⟩, stashed⟩ := handled
  have none_ : s.core.verifying ++ s.core.stashed = [] := by
    change s.verifying ++ s.stashed = []
    rw [verifying, stashed, List.append_nil]
  have below : n < told := by
    refine accounts.below none_ there account arrived transfer own ge ?_
    change w ∉ s.polling
    rw [polling]
    exact List.not_mem_nil
  have listed : n ∈ (s.core.reported c i).map (·.1) := by
    rw [account.reported]
    exact List.mem_range.mpr below
  obtain ⟨⟨_, ev⟩, hy, rfl⟩ := List.mem_map.mp listed
  exact ⟨ev, hy⟩

end

/-- In every run whose completions are drawn in order, at every moment when all of them
have been handled, and for every history of a queue pair: each write that was executed,
or may have been in part, and is reported is reported as done or as one that may have
modified its target, exactly if the history is covered. -/
theorem landed_writes_told_iff {F : Type} [CcReal F] (cfg : RdmaConfig) (d : Dialled)
    (narrow : ∀ c, d.width c ≤ 2 ^ 14) (recv : ConnId → Option RecvBuffer) (receives : Nat → Nat)
    (regions : List (Nat × Mr)) (nextKey : Nat) (cc : CongestionController F)
    {p : Pool Call (World F) Answer Reply}
    (run : Run (body cfg) (fun s s' => Short d s s' ∧ Orderly s s')
      (World.start d recv receives regions nextKey cc) p)
    (handled : p.shared.polling ++ p.shared.verifying ++ p.shared.stashed = [])
    (c i : Nat) (q : QueuePair) (there : (p.shared.conns c).qps[i]? = some q) (h : History)
    (shows : h.Shows p.shared q) :
    (∀ n, h.Touches n → ∀ t ev, .reported t c i n ev ∈ p.shared.log →
      ev.status = .ok ∨ ev.mayHaveModifiedTarget = true) ↔ h.Covered := by
  obtain ⟨held, -, sections, accounts, kinds⟩ := run_keeps
    (fun k M => Accounts cfg k M ∧ Guarded KindsRest Kinds k M) (fun _ => True)
    ⟨.start cfg d recv receives regions nextKey cc,
      Kinds.start d recv receives regions nextKey cc⟩
    (fun _ move ok sections before =>
      ⟨before.1.move sections narrow (ok.1.core (.move move sections)) ok.2 move,
        Kinds.move move sections before.2⟩) run fun _ _ => trivial
  constructor
  · intro safe
    by_contra uncovered
    obtain ⟨n, m, st, touches, failure, spares, found⟩ := History.exists_of_not_covered uncovered
    obtain ⟨ev, reported⟩ := shows.reported sections accounts there handled found
    obtain ⟨m', st', found', safe_iff⟩ :=
      shows.of_reported sections accounts kinds there reported touches.1
    cases found.symm.trans found'
    obtain ⟨t, line⟩ := Core.of_mem_reported reported
    rcases safe_iff.mp (safe n touches t ev line) with success | loud
    · exact failure success
    · exact loud spares
  · intro covered n touches t ev line
    obtain ⟨m, st, found, safe_iff⟩ :=
      shows.of_reported sections accounts kinds there (Core.mem_reported line) touches.1
    exact safe_iff.mpr (covered.found touches found)

/-- Two writes, of which the second fails. -/
def Bench.secondFails (signalled : Bool) (st : WcStatus) (failure : st ≠ .success) : History where
  requests := [⟨makeWrId 0 0, .rdmaWrite, signalled, 256, 4, 11, 512, 12⟩,
    ⟨makeWrId 0 1, .rdmaWrite, true, 256, 6, 11, 512, 12⟩]
  fails := some (1, st)
  unsuccessful := by
    rintro _ ⟨⟩
    exact failure

/-- The first was signalled and has succeeded when the second fails for the protection
of its local buffer. -/
theorem landed_writes_told_signalled :
    ∃ p, Run (body Bench.eager) (fun s s' => Short Bench.dialled s s' ∧ Orderly s s')
        (Bench.world makeCcOff) p ∧ p.Quiet ∧
      (∃ q, (p.shared.conns 0).qps = [q] ∧
        (Bench.secondFails true .locProtErr (by decide)).Shows p.shared q) ∧
      ∃ t ev, .reported t 0 0 0 ev ∈ p.shared.log ∧
        (ev.status = .ok ∨ ev.mayHaveModifiedTarget = true) := by
  obtain ⟨p, run, quiet, handled, nums, requests, completions, line, logged, reports⟩ :=
    Run.of_enact (body Bench.eager)
      (fun s s' => Short Bench.dialled s s' ∧ Orderly s s') (Bench.world makeCcOff)
      [([.time 0, .code 0],
          [.spawn (.submit (some 0) [Bench.write 7 4, Bench.write 8 6]), .run 0 22]),
        ([.time 5, .drawn [.sent 1 0 .success, .sent 1 0 .locProtErr]],
          [.spawn (.poll 8), .run 1 20])]
      (fun p => p.Quiet ∧ p.shared.polling ++ p.shared.verifying ++ p.shared.stashed = [] ∧
        (p.shared.conns 0).qps.map (·.num) = [1] ∧
        (Bench.secondFails true .locProtErr (by decide)).requests <+:
          posted (p.shared.adapter 1).sends ∧
        ((p.shared.arrived.filter fun w => w.transfer && w.qpNum = 1).map fun w =>
          (wrSeq w.wrId, w.status)) =
            (Bench.secondFails true .locProtErr (by decide)).completions ∧
        ∃ line ∈ p.shared.log, line.reports 0 0 0 = true)
      (by decide +kernel)
  obtain ⟨q, one, num⟩ := List.map_eq_singleton_iff.mp nums
  obtain ⟨t, ev, rfl⟩ := Line.reports_iff.mp reports
  have shows : (Bench.secondFails true .locProtErr (by decide)).Shows p.shared q :=
    ⟨num ▸ requests, num ▸ completions⟩
  refine ⟨p, run, quiet, ⟨q, one, shows⟩, t, ev, logged, ?_⟩
  exact (landed_writes_told_iff Bench.eager Bench.dialled Bench.narrow _ _ _ _ makeCcOff run handled
    0 0 q (by rw [one]; rfl) _ shows).mpr (by decide) 0 (by decide) t ev logged

/-- The first was not signalled: it was executed, and is reported with the status of the
second, whose acknowledgement never came, as one that has not modified its target. -/
theorem landed_write_denied :
    ∃ p, Run (body Bench.sparing) (fun s s' => Short Bench.dialled s s' ∧ Orderly s s')
        (Bench.world makeCcOff) p ∧ p.Quiet ∧
      (∃ q, (p.shared.conns 0).qps = [q] ∧
        (Bench.secondFails false .retryExcErr (by decide)).Shows p.shared q) ∧
      (Bench.secondFails false .retryExcErr (by decide)).Touches 0 ∧
      ∃ t ev, .reported t 0 0 0 ev ∈ p.shared.log ∧ ev.status = .peerDisconnected ∧
        ev.mayHaveModifiedTarget = false := by
  obtain ⟨p, run, quiet, nums, requests, completions, line, logged, reports, told⟩ :=
    Run.of_enact (body Bench.sparing)
      (fun s s' => Short Bench.dialled s s' ∧ Orderly s s') (Bench.world makeCcOff)
      [([.time 0, .code 0],
          [.spawn (.submit (some 0) [Bench.write 7 4, Bench.write 8 6]), .run 0 22]),
        ([.time 5, .drawn [.sent 1 1 .retryExcErr]], [.spawn (.poll 8), .run 1 15])]
      (fun p => p.Quiet ∧ (p.shared.conns 0).qps.map (·.num) = [1] ∧
        (Bench.secondFails false .retryExcErr (by decide)).requests <+:
          posted (p.shared.adapter 1).sends ∧
        ((p.shared.arrived.filter fun w => w.transfer && w.qpNum = 1).map fun w =>
          (wrSeq w.wrId, w.status)) =
            (Bench.secondFails false .retryExcErr (by decide)).completions ∧
        ∃ line ∈ p.shared.log, line.reports 0 0 0 = true ∧ ∀ y ∈ line.told,
          y.2.status = .peerDisconnected ∧ y.2.mayHaveModifiedTarget = false)
      (by decide +kernel)
  obtain ⟨q, one, num⟩ := List.map_eq_singleton_iff.mp nums
  obtain ⟨t, ev, rfl⟩ := Line.reports_iff.mp reports
  exact ⟨p, run, quiet,
    ⟨q, one, num ▸ requests, num ▸ completions⟩, by decide, t, ev, logged, told _ rfl⟩

end Hux.Rdma
