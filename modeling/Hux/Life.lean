import Hux.Conduct

/-!
# The life of one request

A `Life` is what a run shows of one transfer: its object, whether it is in
flight, the resources of all threads that are about it, and its part of the
history. Every run of the engine is, for each transfer, a run of `LifeStep`
(`Run.lives`), so what holds of every life holds of every transfer.
-/

namespace Hux
open Interleave (Tid Run Matched Pool)
open Multiset (mem_coe mem_add mem_singleton filter_coe)

/-! ## Lives -/

structure Life where
  req : Request
  flying : Bool
  tokens : Multiset Res
  log : List (Tid × Event)

/-- What a condition on a run can say about a transfer. -/
structure View where
  req : Request
  log : List (Tid × Event)

def Life.view (a : Life) : View := ⟨a.req, a.log⟩

/-- The resources about a transfer. -/
def own (q : RequestId) (M : Multiset Res) : Multiset Res := M.filter (·.about = some q)

/-- A transfer's part of the history. -/
def history (q : RequestId) (log : List (Tid × Event)) : List (Tid × Event) :=
  log.filter (·.2.about = some q)

@[simp] theorem own_zero (q : RequestId) : own q 0 = 0 := rfl

@[simp] theorem own_add (q : RequestId) (M M' : Multiset Res) :
    own q (M + M') = own q M + own q M' := Multiset.filter_add ..

variable {q : RequestId}

theorem own_eq_self {M : Multiset Res} (h : ∀ x ∈ M, x.about = some q) :
    own q M = M := Multiset.filter_eq_self.mpr h

theorem own_eq_zero {M : Multiset Res} (h : ∀ x ∈ M, x.about ≠ some q) :
    own q M = 0 := Multiset.filter_eq_nil.mpr h

@[simp] theorem history_append (q : RequestId) (log log' : List (Tid × Event)) :
    history q (log ++ log') = history q log ++ history q log' := List.filter_append ..

theorem history_eq_self {log : List (Tid × Event)} (h : ∀ e ∈ log, e.2.about = some q) :
    history q log = log :=
  List.filter_eq_self.mpr (by simpa using h)

theorem history_eq_nil {log : List (Tid × Event)} (h : ∀ e ∈ log, e.2.about ≠ some q) :
    history q log = [] :=
  List.filter_eq_nil_iff.mpr (by simpa using h)

namespace Ledger

/-- The life of transfer `q`, when the threads hold `M`. -/
def life (l : Ledger) (M : Multiset Res) (q : RequestId) : Life where
  req := l.reqs (.transfer q)
  flying := l.flying q
  tokens := own q (M + work l.pending)
  log := history q l.trace

def view (l : Ledger) (q : RequestId) : View := ⟨l.reqs (.transfer q), history q l.trace⟩

end Ledger

/-- No number was given out for it: nothing but stray reports. -/
structure Untouched (a : Life) : Prop where
  unmade : a.req.made = false
  live : a.req.terminal = false
  grounded : a.flying = false
  tokens : ∀ x ∈ a.tokens, ∃ ev, x = .event ev
  log : ∀ e ∈ a.log, ∃ ev, e.2 = .reported ev

/-- A step of some thread that concerns transfer `q`. -/
inductive LifeStep (t : Tid) (q : RequestId) : Life → Life → Prop
  | deed {r r' : Request} {fl fl' : Bool} {F X X' : Multiset Res} {log : List (Tid × Event)}
      {evs : List Event} (deed : Deed t q r fl X r' fl' X' evs) :
      LifeStep t q ⟨r, fl, F + X, log⟩ ⟨r', fl', F + X',
        evs.map (t, ·) ++ ((changes (.transfer q) r r').map (t, ·) ++ log)⟩
  | land {r : Request} {fl : Bool} {F : Multiset Res} {log : List (Tid × Event)}
      {p : PendingSubmit} {n : Nat} {op : SubOp} (mine : p.req = q) (next : p.ops[n]? = some op) :
      LifeStep t q ⟨r, fl, F + {.landing p n}, log⟩ ⟨r, fl, F + {.posting p (n + 1)}, log⟩
  | report {r : Request} {fl : Bool} {F : Multiset Res} {log : List (Tid × Event)}
      {evs : List CompletionEvent} (mine : ∀ ev ∈ evs, ev.request = q) :
      LifeStep t q ⟨r, fl, F, log⟩
        ⟨r, fl, F + events evs, evs.map (fun ev => (t, .reported ev)) ++ log⟩
  | reap {r : Request} {F : Multiset Res} {log : List (Tid × Event)} :
      LifeStep t q ⟨r, true, F, log⟩
        ⟨r, false, F + {.ending t q .reaped}, (t, .reaped q) :: log⟩
  /-- Its number goes to a notification. -/
  | giveAway {r : Request} {fl : Bool} {F : Multiset Res} {log : List (Tid × Event)} :
      LifeStep t q ⟨r, fl, F + {.ticket q}, log⟩ ⟨r, fl, F, log⟩

def Life.start : Life where
  req := { kind := .read, totalSubops := 0, peer := 0, heldRegions := [], conn := none
           provider := none, remoteTargets := [], made := false }
  flying := false
  tokens := 0
  log := []

/-- The lives reachable by steps that all satisfy `ok`. -/
inductive LifeRun (ok : View → View → Prop) (q : RequestId) : Life → Prop
  | start : LifeRun ok q .start
  | number {a : Life} : LifeRun ok q a → Untouched a →
      LifeRun ok q { a with tokens := a.tokens + {.ticket q} }
  | step {a b : Life} (t : Tid) : LifeRun ok q a → LifeStep t q a b → ok a.view b.view →
      LifeRun ok q b

/-! ## What deeds are about -/

theorem work_about {parts : List PendingSubmit} (mine : ∀ p ∈ parts, p.req = q) :
    ∀ x ∈ work parts, x.about = some q := by
  intro x hx
  simp only [work, mem_coe, List.mem_map] at hx
  obtain ⟨p, hp, rfl⟩ := hx
  simp [Res.about, mine p hp]

namespace Deed
variable {t : Tid} {q : RequestId} {r r' : Request} {fl fl' : Bool} {X X' : Multiset Res}
  {evs : List Event}

theorem takes (deed : Deed t q r fl X r' fl' X' evs) : ∀ x ∈ X, x.about = some q := by
  cases deed with
  | setState mine => simpa using mine
  | finishPart lane =>
    rcases lane with rfl | ⟨p, mine, rfl⟩
    · simp [Res.about]
    · simpa [Res.about] using mine
  | claim last => rcases last with ⟨rfl, -⟩ | ⟨rfl, -⟩ <;> simp [Res.about]
  | missed last => rcases last with rfl | rfl <;> simp [Res.about]
  | _ => simp_all [Res.about]

theorem gives (deed : Deed t q r fl X r' fl' X' evs) : ∀ x ∈ X', x.about = some q := by
  cases deed with
  | admission =>
    intro x hx
    simp only [mem_add, mem_singleton] at hx
    rcases hx with (rfl | rfl) | rfl <;> rfl
  | split all mine => exact work_about mine
  | setState mine => simpa using mine
  | offer mine => split <;> simpa [Res.about] using mine
  | settle mine =>
    intro x hx
    rw [mem_singleton] at hx
    subst hx
    unfold settled
    split
    · rename_i later rest
      simp [Res.about, (PendingSubmit.rest_req rest).1, mine]
    · simp [Res.about, mine]
  | finishPart | sealIfIdle | complete => split <;> simp [Res.about]
  | _ => simp_all [Res.about]

theorem tells (deed : Deed t q r fl X r' fl' X' evs) : ∀ e ∈ evs, e.about = some q := by
  cases deed <;> simp [Event.about]

end Deed

theorem mem_changes {h : Handle} {r r' : Request} {e : Event} (he : e ∈ changes h r r') :
    e = .ended h r'.state ∨ ∃ s, e = .staged h s := by
  simp only [changes, List.mem_append, List.mem_map, List.mem_filter] at he
  rcases he with he | ⟨s, -, rfl⟩
  · split at he
    · exact .inl (List.mem_singleton.mp he)
    · cases he
  · exact .inr ⟨s, rfl⟩

theorem changes_about (q : RequestId) (r r' : Request) :
    ∀ e ∈ changes (.transfer q) r r', e.about = some q := by
  intro e he
  obtain rfl | ⟨s, rfl⟩ := mem_changes he <;> rfl

theorem changes_note_about (q : RequestId) (r r' : Request) :
    ∀ e ∈ changes (.note q) r r', e.about = none := by
  intro e he
  obtain rfl | ⟨s, rfl⟩ := mem_changes he <;> rfl

/-- What a deed says, apart from how the object changed. -/
def Event.said : Event → Bool
  | .ended _ _ | .staged _ _ | .reported _ | .reaped _ => false
  | _ => true

variable {t : Tid}

/-- A new line of that kind comes with the deed that says so. -/
theorem LifeStep.told {a b : Life} (step : LifeStep t q a b) {e : Tid × Event} (he : e ∈ b.log)
    (first : e ∉ a.log) (said : e.2.said = true) :
    ∃ r r' fl fl' F X X' log evs, Deed t q r fl X r' fl' X' evs ∧ a = ⟨r, fl, F + X, log⟩ ∧
      b = ⟨r', fl', F + X',
        evs.map (t, ·) ++ ((changes (.transfer q) r r').map (t, ·) ++ log)⟩ ∧
      e.2 ∈ evs := by
  cases step with
  | @deed r r' fl fl' F X X' log evs deed =>
    refine ⟨r, r', fl, fl', F, X, X', log, evs, deed, rfl, rfl, ?_⟩
    simp only [List.mem_append, List.mem_map] at he
    rcases he with ⟨e, told, rfl⟩ | ⟨e, change, rfl⟩ | before
    · exact told
    · obtain rfl | ⟨s, rfl⟩ := mem_changes change <;> cases said
    · exact absurd before first
  | report =>
    rcases List.mem_append.mp he with he | before
    · obtain ⟨ev, -, rfl⟩ := List.mem_map.mp he
      cases said
    · exact absurd before first
  | reap =>
    rcases List.mem_cons.mp he with rfl | before
    · cases said
    · exact absurd before first
  | land | giveAway => exact absurd he first

variable {evs : List Event}

/-- Of a notification, only the number it is made with is about a transfer. -/
theorem NoteDeed.about {r r' : Request} {X X' : Multiset Res} (deed : NoteDeed t q r X r' X' evs) :
    (X = {.ticket q} ∧ X' = 0 ∨ (∀ x ∈ X, x.about = none) ∧ ∀ x ∈ X', x.about = none) ∧
      ∀ e ∈ evs, e.about = none := by
  cases deed <;> simp [Res.about, Event.about]

/-! ## A move, seen from one transfer -/

theorem history_map (h : ∀ e ∈ evs, e.about = some q) :
    history q (evs.map (t, ·)) = evs.map (t, ·) :=
  history_eq_self (by simpa using h)

theorem history_map_other (h : ∀ e ∈ evs, e.about ≠ some q) : history q (evs.map (t, ·)) = [] :=
  history_eq_nil (by simpa using h)

namespace Ledger
variable (l : Ledger) (t : Tid) {q q' : RequestId} (r : Request) (fl : Bool) {evs : List Event}
  (M : Multiset Res)

theorem life_apply (about : ∀ e ∈ evs, e.about = some q) :
    (l.apply t q r fl evs).life M q = ⟨r, fl, own q (M + work l.pending),
      evs.map (t, ·) ++ ((changes (.transfer q) (l.reqs (.transfer q)) r).map (t, ·) ++
        history q l.trace)⟩ := by
  have flies : (l.apply t q r fl evs).flying q = fl := by
    cases fl <;> simp [flying]
  simp [life, flies, history_map about, history_map (changes_about q _ r)]

theorem life_apply_other (about : ∀ e ∈ evs, e.about = some q) (other : q' ≠ q) :
    (l.apply t q r fl evs).life M q' = l.life M q' := by
  have not_about {e : Event} (h : e.about = some q) : e.about ≠ some q' := by
    rw [h]
    exact fun eq => other (Option.some.inj eq).symm
  have flies : (l.apply t q r fl evs).flying q' = l.flying q' := by
    cases fl <;> simp [flying, other]
  simp [life, flies, other, history_map_other fun e he => not_about (about e he),
    history_map_other fun e he => not_about (changes_about q _ r e he)]

theorem life_applyNote (about : ∀ e ∈ evs, e.about = none) (pending : List (Nat × RequestId)) :
    (l.applyNote t q r evs pending).life M q' = l.life M q' := by
  have not_about {e : Event} (h : e.about = none) : e.about ≠ some q' := by simp [h]
  simp [life, flying, history_map_other fun e he => not_about (about e he),
    history_map_other fun e he => not_about (changes_note_about q _ r e he)]

/-- Resources about other things do not matter to a life. -/
theorem life_own {M M' : Multiset Res} (same : own q M = own q M') : l.life M q = l.life M' q := by
  simp [life, same]

end Ledger

/-- What a move is to transfer `q`: nothing, a step of its life, or the moment
it gets its number. -/
inductive LifeMove (t : Tid) (q : RequestId) (l : Ledger) (M : Multiset Res) (l' : Ledger)
    (M' : Multiset Res) : Prop
  | same (next : l.nextRequest ≤ l'.nextRequest) (life : l'.life M' q = l.life M q)
  | step (next : l.nextRequest ≤ l'.nextRequest) (step : LifeStep t q (l.life M q) (l'.life M' q))
  | number (next : l.nextRequest = q) (past : q < l'.nextRequest)
      (life : l'.life M' q = { l.life M q with tokens := (l.life M q).tokens + {.ticket q} })

section
variable {T : Transport} {t : Tid} {l : Ledger} {σ σ' : T.State} {M M' : Multiset Res}

variable {X X' : Multiset Res}

/-- A deed on one transfer is a step of that one's life only. -/
theorem LifeMove.of_deed {q : RequestId} {r : Request} {fl : Bool} {evs : List Event}
    (deed : Deed t q (l.reqs (.transfer q)) (l.flying q) X r fl X' evs) (F : Multiset Res)
    (q' : RequestId) : LifeMove t q' l (F + X) (l.apply t q r fl evs) (F + X') := by
  by_cases mine : q' = q
  · subst mine
    refine .step le_rfl ?_
    rw [l.life_apply t r fl (F + X') deed.tells]
    simp only [Ledger.life, own_add, own_eq_self deed.takes, own_eq_self deed.gives]
    rw [add_right_comm, add_right_comm (own q' F) X']
    exact .deed deed
  · refine .same le_rfl ?_
    have not_about {x : Res} (h : x.about = some q) : x.about ≠ some q' := by
      rw [h]
      exact fun eq => mine (Option.some.inj eq).symm
    rw [l.life_apply_other t r fl (F + X') deed.tells mine]
    refine l.life_own ?_
    simp [own_eq_zero fun x hx => not_about (deed.takes x hx),
      own_eq_zero fun x hx => not_about (deed.gives x hx)]

theorem LifeMove.of_land (l : Ledger) {p : PendingSubmit} {n : Nat} {op : SubOp}
    (next : p.ops[n]? = some op) (F : Multiset Res) (q : RequestId) :
    LifeMove t q l (F + {.landing p n}) l (F + {.posting p (n + 1)}) := by
  by_cases mine : p.req = q
  · refine .step le_rfl ?_
    have self {x : Res} (h : x.about = some p.req) : own q {x} = {x} :=
      own_eq_self (by simp [h, mine])
    simp only [Ledger.life, own_add, self (x := .landing p n) rfl,
      self (x := .posting p (n + 1)) rfl]
    rw [add_right_comm, add_right_comm (own q F) {.posting p (n + 1)}]
    exact .land mine next
  · refine .same le_rfl (l.life_own ?_)
    have other {x : Res} (h : x.about = some p.req) : own q {x} = 0 :=
      own_eq_zero (by simp [h, mine])
    simp [other (x := .landing p n) rfl, other (x := .posting p (n + 1)) rfl]

theorem LifeMove.of_poll (l : Ledger) (evs : List CompletionEvent) (F : Multiset Res)
    (q : RequestId) : LifeMove t q l F (l.reported t evs) (F + events evs) := by
  refine .step le_rfl ?_
  have tokens : own q (events evs) = events (evs.filter (·.request = q)) := by
    rw [own, events, filter_coe, List.filter_map]
    simp [events, Function.comp_def, Res.about]
  have log : history q (evs.map fun ev => (t, .reported ev)) =
      (evs.filter (·.request = q)).map fun ev => (t, .reported ev) := by
    simp [history, List.filter_map, Function.comp_def, Event.about]
  simp only [Ledger.life, own_add, Ledger.reported_reqs, Ledger.reported_trace,
    Ledger.reported_pending, history_append, tokens, log]
  rw [add_right_comm]
  exact .report (by simp)

theorem LifeMove.of_reap {peer : PeerId} {qs : List RequestId} (distinct : qs.Nodup)
    (all : qs.toFinset = l.stranded peer) (F : Multiset Res) (q : RequestId) :
    LifeMove t q l F (l.reap t qs) (F + stranding t qs) := by
  have stranded : q ∈ qs ↔ q ∈ l.stranded peer := by rw [← all, List.mem_toFinset]
  have log : history q (qs.map fun q => (t, .reaped q)) =
      (qs.filter (· == q)).map fun q => (t, .reaped q) := by
    simp [history, List.filter_map, Function.comp_def, Event.about, beq_eq_decide]
  have tokens : own q (stranding t qs) = stranding t (qs.filter (· == q)) := by
    rw [own, stranding, filter_coe, List.filter_map]
    simp [stranding, Function.comp_def, Res.about, beq_eq_decide]
  rw [List.filter_beq] at log tokens
  by_cases mine : q ∈ qs
  · have flies : l.flying q = true := by
      have := stranded.mp mine
      simp_all [Ledger.stranded, Ledger.flying]
    have landed : (l.reap t qs).flying q = false := by simp [Ledger.flying, mine]
    rw [List.count_eq_one_of_mem distinct mine] at log tokens
    refine .step le_rfl ?_
    simp only [Ledger.life, own_add, Ledger.reap_reqs, Ledger.reap_trace, Ledger.reap_pending,
      history_append, tokens, log, landed, flies]
    rw [add_right_comm]
    exact .reap
  · rw [List.count_eq_zero_of_not_mem mine] at log tokens
    refine .same le_rfl ?_
    simp only [Ledger.life, own_add, Ledger.reap_reqs, Ledger.reap_trace, Ledger.reap_pending,
      history_append, tokens, log]
    simp [Ledger.flying, mine, stranding]

/-- Every move is one of these to every transfer, whatever else the threads hold. -/
theorem Move.life {s s' : Ledger × T.State} (move : Move T t s X s' X') (F : Multiset Res)
    (q : RequestId) : LifeMove t q s.1 (F + X) s'.1 (F + X') := by
  have aside {l' : Ledger} {X X' : Multiset Res} (next : l'.nextRequest = s.1.nextRequest)
      (life : l'.life (F + X') q = s.1.life (F + X') q) (same : own q X' = own q X) :
      LifeMove t q s.1 (F + X) l' (F + X') :=
    .same next.ge (life.trans (s.1.life_own (by simp [same])))
  cases move with
  | touch => exact aside rfl rfl rfl
  | deed deed => exact .of_deed deed F q
  | @offer l σ σ' p n op taken a next =>
    have deed : Deed t p.req (l.reqs (.transfer p.req)) (l.flying p.req) {.posting p n} _ _
      {if taken then .landing p n else .posting p n} [.offered p.req op taken] := .offer rfl next
    have same := l.log_eq_apply t p.req (.offered p.req op taken) (by simp) (by simp)
    dsimp only
    rw [same]
    exact .of_deed deed F q
  | land next => exact .of_land _ next F q
  | poll =>
    rw [add_zero]
    exact .of_poll _ _ F q
  | reap distinct all =>
    rw [add_zero]
    exact .of_reap distinct all F q
  | @nextId l =>
    by_cases mine : q = l.nextRequest
    · subst mine
      refine .number rfl (Nat.lt_succ_self _) ?_
      have self : own l.nextRequest {.ticket l.nextRequest} = {.ticket l.nextRequest} :=
        own_eq_self (by simp [Res.about])
      simp [Ledger.life, self, Ledger.flying, add_right_comm]
    · refine .same (Nat.le_succ _) (l.life_own ?_)
      have other : own q {.ticket l.nextRequest} = 0 :=
        own_eq_zero (by simpa [Res.about] using Ne.symm mine)
      simp [other]
  | @defer l σ ps =>
    refine .same le_rfl ?_
    simp [Ledger.life, Ledger.flying, work_append, add_assoc, add_comm]
  | @drain l σ ps perm =>
    refine .same le_rfl ?_
    have same : work ps = work l.pending := Quot.sound (perm.map _)
    simp [Ledger.life, Ledger.flying, same]
  | retire => exact aside rfl rfl (own_eq_zero (by simp [Res.about]))
  | deregister =>
    refine aside rfl ?_ ?_
    · simp [Ledger.life, Ledger.flying, history, Event.about]
    · rw [own_eq_zero (by simp [Res.about]), own_eq_zero (by simp [Res.about])]
  | @note l σ q' r X X' evs pending deed _ _ =>
    obtain ⟨⟨rfl, rfl⟩ | ⟨takes, gives⟩, tells⟩ := deed.about
    · by_cases mine : q' = q
      · subst mine
        refine .step le_rfl ?_
        have self : own q' {.ticket q'} = {.ticket q'} := own_eq_self (by simp [Res.about])
        rw [l.life_applyNote t r _ tells]
        simp only [Ledger.life, own_add, self, add_zero]
        rw [add_right_comm]
        exact .giveAway
      · refine aside rfl (l.life_applyNote t r _ tells _) ?_
        rw [own_zero, own_eq_zero (by simpa [Res.about] using mine)]
    · refine aside rfl (l.life_applyNote t r _ tells _) ?_
      rw [own_eq_zero fun x hx => by simp [gives x hx],
        own_eq_zero fun x hx => by simp [takes x hx]]
  | forget => exact aside rfl rfl rfl
  | sweep => exact aside rfl (by simp [Ledger.life, Ledger.flying, history, Event.about]) rfl

/-! ## Runs -/

theorem Untouched.step {q : RequestId} {a b : Life} (step : LifeStep t q a b)
    (untouched : Untouched a) : Untouched b := by
  obtain ⟨unmade, live, grounded, tokens, log⟩ := untouched
  cases step with
  | @deed r r' fl fl' F X X' _ evs deed =>
    have given (x : Res) (hx : x ∈ X) : ∃ ev, x = .event ev :=
      tokens x (mem_add.mpr (.inr hx))
    cases deed with
    | setState mine held =>
      obtain ⟨p, n, rfl | rfl⟩ := held <;> simp at given
    | finishPart lane =>
      rcases lane with rfl | ⟨p, -, rfl⟩ <;> simp at given
    | claim last =>
      rcases last with ⟨rfl, -⟩ | ⟨rfl, -⟩ <;> simp at given
    | missed last =>
      rcases last with rfl | rfl <;> simp at given
    | dropEvent =>
      refine ⟨unmade, live, rfl, fun x hx => tokens x ?_, by simpa [changes_self] using log⟩
      exact mem_add.mpr (.inl (by simpa using hx))
    | find => cases grounded
    | cancel made => simp_all
    | _ => simp at given
  | @land _ _ F _ p n =>
    obtain ⟨ev, h⟩ := tokens (.landing p n) (by simp)
    cases h
  | report mine =>
    refine ⟨unmade, live, grounded, fun x hx => ?_, fun e he => ?_⟩
    · rcases mem_add.mp hx with hx | hx
      · exact tokens x hx
      · obtain ⟨ev, -, rfl⟩ := List.mem_map.mp (mem_coe.mp hx)
        exact ⟨ev, rfl⟩
    · rcases List.mem_append.mp he with he | he
      · obtain ⟨ev, -, rfl⟩ := List.mem_map.mp he
        exact ⟨ev, rfl⟩
      · exact log e he
  | reap => cases grounded
  | giveAway =>
    obtain ⟨ev, h⟩ := tokens (.ticket q) (by simp)
    cases h

/-- Every transfer has a life the steps allow, and those past the counter have
not begun. -/
structure Lives (ok : RequestId → View → View → Prop) (l : Ledger) (M : Multiset Res) : Prop where
  each : ∀ q, LifeRun (ok q) q (l.life M q)
  later : ∀ q, l.nextRequest ≤ q → Untouched (l.life M q)

theorem Lives.start {W : Type} {ok : RequestId → View → View → Prop} (dir : Directory W)
    (σ : T.State) : Lives ok (World.start dir σ).ledger 0 := by
  have start (q : RequestId) : (World.start dir σ).ledger.life 0 q = .start := rfl
  refine ⟨fun q => start q ▸ .start, fun q _ => start q ▸ ⟨rfl, rfl, rfl, ?_, ?_⟩⟩
  · simp [Life.start]
  · simp [Life.start]

theorem Lives.move {ok : RequestId → View → View → Prop} {s s' : Ledger × T.State}
    {F : Multiset Res} (move : Move T t s X s' X')
    (allowed : ∀ q, ok q (s.1.view q) (s'.1.view q)) (lives : Lives ok s.1 (F + X)) :
    Lives ok s'.1 (F + X') := by
  refine ⟨fun q => ?_, fun q past => ?_⟩
  · cases move.life F q with
    | same _ life => exact life ▸ lives.each q
    | step _ step => exact .step t (lives.each q) step (allowed q)
    | number next _ life => exact life ▸ .number (lives.each q) (lives.later q next.le)
  · cases move.life F q with
    | same next life => exact life ▸ lives.later q (next.trans past)
    | step next step => exact (lives.later q (next.trans past)).step step
    | number _ counted => exact absurd past (not_le.mpr counted)

variable {W : Type} [LaneCost W] {setup : Setup W}

/-- A run of the engine is a run of every transfer's life; and what moves keep,
given those lives, holds as well. -/
theorem Run.lives (ok : Ledger → Ledger → Prop) (okq : RequestId → View → View → Prop)
    (views : ∀ l l', ok l l' → ∀ q, okq q (l.view q) (l'.view q))
    (Inv : Ledger × T.State → Multiset Res → Prop) {dir : Directory W} {σ : T.State}
    (start : Inv ((World.start dir σ).ledger, σ) 0)
    (keep : ∀ t s F X s' X', Lives okq s.1 (F + X) → Inv s (F + X) → Move T t s X s' X' →
      ok s.1 s'.1 → Inv s' (F + X'))
    {p : Pools T W}
    (run : Runs setup dir σ (fun s s' => ok s.ledger s'.ledger) p) :
    ∃ held, Matched (moves T W) Call.post p held ∧ Lives okq p.shared.ledger held.sum ∧
      Inv (p.shared.ledger, p.shared.transport) held.sum := by
  refine Run.invariant (fun s M => Lives okq s.ledger M ∧ Inv (s.ledger, s.transport) M)
    (fun c t => body_follows c t) ⟨.start dir σ, start⟩ ?_ run
  rintro t s F X s' X' ⟨lives, inv⟩ move allowed
  exact ⟨lives.move move (views _ _ allowed), keep t _ F X _ X' lives inv move allowed⟩

/-- Whatever else is asked of the steps. -/
theorem Run.life {ok : World T W → World T W → Prop} {dir : Directory W} {σ : T.State}
    {p : Pools T W}
    (run : Runs setup dir σ ok p) (q : RequestId) :
    ∃ M, LifeRun (fun _ _ => True) q (p.shared.ledger.life M q) := by
  obtain ⟨held, -, lives, -⟩ := Run.lives (fun _ _ => True) (fun _ _ _ => True)
    (fun _ _ _ _ => trivial) (fun _ _ => True) trivial (by simp) (run.mono fun _ _ _ => trivial)
  exact ⟨held.sum, lives.each q⟩

end

end Hux
