import Hux.Stages

/-!
# Giving a region back

A region is retired before `inflight_` is searched for it, and admission looks at
that flag under the same lock: whichever comes first sees the other.
`deregistration_excludes_transfers` is what a caller of `deregister_memory` can
rely on.
-/

namespace Hux
open Interleave (Tid Run Pool)
open Multiset (mem_add mem_coe mem_singleton mem_of_le)

/-- Resources that vouch for a region's or a request's past. -/
@[simp] def Res.receipt : Res → Bool
  | .retiring _ | .admittedBy _ _ _ | .deregisteredBy _ _ => true
  | _ => false

/-- The lines those vouch for. -/
@[simp] def Event.receipt : Event → Bool
  | .admitted _ _ _ | .deregistered _ => true
  | _ => false

structure Retirement (l : Ledger) (M : Multiset Res) : Prop where
  retiring : ∀ R, .retiring R ∈ M → l.retired R = true
  deregistered : ∀ t R, .deregisteredBy t R ∈ M → (t, .deregistered R) ∈ l.trace
  admitted : ∀ t q Rs, .admittedBy t q Rs ∈ M → ∃ ops, (t, .admitted q Rs ops) ∈ l.trace
  gone : ∀ t R, (t, .deregistered R) ∈ l.trace → l.retired R = true ∧ l.uses R = false
  before : Along (fun x older => ∀ q Rs ops, x.2 = .admitted q Rs ops →
    ∀ u, ∀ R ∈ Rs, (u, .deregistered R) ∉ older) l.trace

section
variable {l l' : Ledger} {F X X' M M' : Multiset Res} {t : Tid} {q : RequestId} {r r' : Request}
  {fl fl' : Bool} {evs : List Event}

theorem uses_mono (still : ∀ q ∈ l'.inflight, q ∈ l.inflight ∧
      (l'.reqs (.transfer q)).heldRegions = (l.reqs (.transfer q)).heldRegions)
    {R : RegionId} (free : l.uses R = false) : l'.uses R = false := by
  simp only [Ledger.uses, decide_eq_false_iff_not, not_exists, not_and] at free ⊢
  intro q flies
  rw [(still q flies).2]
  exact free q (still q flies).1

/-- A step that neither admits anything nor takes a region back. -/
theorem Retirement.mono (new : List (Tid × Event)) (h : Retirement l (F + X))
    (retired : ∀ R, l.retired R = true → l'.retired R = true)
    (still : ∀ q ∈ l'.inflight, q ∈ l.inflight ∧
      (l'.reqs (.transfer q)).heldRegions = (l.reqs (.transfer q)).heldRegions)
    (trace : l'.trace = new ++ l.trace) (silent : ∀ e ∈ new, e.2.receipt = false)
    (plain : ∀ x ∈ X', x.receipt = false) : Retirement l' (F + X') := by
  have given (x : Res) (hx : x ∈ F + X') (receipt : x.receipt = true) : x ∈ F + X := by
    rcases mem_add.mp hx with hx | hx
    · exact mem_add.mpr (.inl hx)
    · cases (plain x hx).symm.trans receipt
  have later {e : Tid × Event} (he : e ∈ l.trace) : e ∈ l'.trace :=
    trace ▸ List.mem_append_right _ he
  refine ⟨fun R held => retired R (h.retiring R (given _ held rfl)),
    fun t R held => later (h.deregistered t R (given _ held rfl)), fun t q Rs held => ?_,
    fun t R told => ?_, ?_⟩
  · obtain ⟨ops, told⟩ := h.admitted t q Rs (given _ held rfl)
    exact ⟨ops, later told⟩
  · rw [trace, List.mem_append] at told
    rcases told with told | told
    · cases silent _ told
    · exact ⟨retired R (h.gone t R told).1, uses_mono still (h.gone t R told).2⟩
  · rw [trace]
    refine h.before.append _ fun x mid last q Rs ops admitted => ?_
    have := silent x (last.subset List.mem_cons_self)
    rw [admitted] at this
    cases this

theorem Deed.held (deed : Deed t q r fl X r' fl' X' evs) :
    (r'.heldRegions = r.heldRegions ∧ (fl' = true → fl = true) ∧
      (∀ x ∈ X', x.receipt = false) ∧ ∀ e ∈ evs, e.receipt = false) ∨
    ∃ ops, evs = [.admitted q r'.heldRegions ops] ∧ fl' = true ∧
      X' = {.admittedBy t q r'.heldRegions} + {.unsplit q ops} + {.uncounted q} := by
  cases deed with
  | @admission _ _ ops => exact .inr ⟨ops, rfl, rfl, rfl⟩
  | split =>
    refine .inl ⟨rfl, id, fun x hx => ?_, by simp⟩
    obtain ⟨p, -, rfl⟩ := List.mem_map.mp (mem_coe.mp hx)
    rfl
  | setState _ held =>
    obtain ⟨p, n, rfl | rfl⟩ := held <;>
      exact .inl ⟨by rw [r.setState_eq], id, by simp⟩
  | noteError =>
    exact .inl ⟨by rw [r.noteError_eq], id, by simp, by simp⟩
  | offer => exact .inl ⟨rfl, id, by split <;> simp, by simp⟩
  | settle =>
    refine .inl ⟨rfl, id, ?_, by simp⟩
    unfold settled
    split <;> simp
  | finishPart | sealIfIdle => exact .inl ⟨rfl, id, by split <;> simp, by simp⟩
  | finish how =>
    exact .inl ⟨by rw [Request.finishes_eq how], id, by simp⟩
  | complete =>
    exact .inl ⟨by rw [r.onSubopComplete_eq], id, by split <;> simp,
      by simp⟩
  | cancel _ live => exact .inl ⟨by rw [r.cancel_live live], id, by simp, by simp⟩
  | _ => exact .inl ⟨rfl, by simp, by simp, by simp⟩

theorem silent_changes (h : Handle) : ∀ e ∈ (changes h r r').map (t, ·), e.2.receipt = false := by
  intro e he
  obtain ⟨e, change, rfl⟩ := List.mem_map.mp he
  obtain rfl | ⟨s, rfl⟩ := mem_changes change <;> rfl

theorem Retirement.admission {ops : List SubOp} (h : Retirement l (F + X))
    (live : ∀ R ∈ r.heldRegions, l.retired R = false) :
    Retirement (l.apply t q r true [.admitted q r.heldRegions ops])
      (F + ({.admittedBy t q r.heldRegions} + {.unsplit q ops} + {.uncounted q})) := by
  have unheld {u : Tid} {R : RegionId} (told : (u, .deregistered R) ∈ l.trace) :
      R ∉ r.heldRegions := fun held => by
    have := (h.gone u R told).1
    simp [live R held] at this
  have earlier {u : Tid} {R : RegionId}
      (told : (u, .deregistered R) ∈ (changes (.transfer q) (l.reqs (.transfer q)) r).map (t, ·) ++
        l.trace) : (u, .deregistered R) ∈ l.trace := by
    rcases List.mem_append.mp told with change | told
    · cases silent_changes _ _ change
    · exact told
  refine ⟨fun R held => ?_, fun u R held => ?_, fun u q' Rs held => ?_, fun u R told => ?_, ?_⟩
  · exact h.retiring R (mem_add.mpr (.inl (by simpa using held)))
  · have := h.deregistered u R (mem_add.mpr (.inl (by simpa using held)))
    simp [this]
  · have kept : .admittedBy u q' Rs ∈ F ∨ u = t ∧ q' = q ∧ Rs = r.heldRegions := by
      simpa [or_comm] using held
    rcases kept with held | ⟨rfl, rfl, rfl⟩
    · obtain ⟨ops', told⟩ := h.admitted u q' Rs (mem_add.mpr (.inl held))
      exact ⟨ops', by simp [told]⟩
    · exact ⟨ops, by simp⟩
  · replace told : (u, .deregistered R) ∈ l.trace := earlier (by simpa using told)
    refine ⟨(h.gone u R told).1, ?_⟩
    have free := (h.gone u R told).2
    simp only [Ledger.uses, decide_eq_false_iff_not, not_exists, not_and] at free ⊢
    intro q' flies
    by_cases same : q' = q
    · subst same
      simpa using unheld told
    · simpa [same] using free q' (by simpa [same] using flies)
  · have quiet : Along (fun x older => ∀ q Rs ops, x.2 = .admitted q Rs ops →
        ∀ u, ∀ R ∈ Rs, (u, .deregistered R) ∉ older)
        ((changes (.transfer q) (l.reqs (.transfer q)) r).map (t, ·) ++ l.trace) := by
      refine h.before.append _ fun x mid last q Rs ops admitted => ?_
      have := silent_changes _ x (last.subset List.mem_cons_self)
      rw [admitted] at this
      cases this
    refine quiet.append [(t, .admitted q r.heldRegions ops)] fun x mid last => ?_
    obtain ⟨rfl, rfl⟩ := List.cons.inj (last.eq_of_length_le (by simp))
    rintro _ _ _ ⟨⟩ u R held told
    exact unheld (earlier told) held

theorem Retirement.retire {R : RegionId} (h : Retirement l F) :
    Retirement (l.retire R) (F + {.retiring R}) := by
  have kept {R' : RegionId} (retired : l.retired R' = true) : (l.retire R).retired R' = true := by
    by_cases same : R' = R <;> simp [same, retired]
  refine ⟨fun R' held => ?_, fun u R' held => h.deregistered u R' (by simpa using held),
    fun u q Rs held => h.admitted u q Rs (by simpa using held),
    fun u R' told => ⟨kept (h.gone u R' told).1, (h.gone u R' told).2⟩, h.before⟩
  rcases mem_add.mp held with held | held
  · exact kept (h.retiring R' held)
  · cases mem_singleton.mp held
    simp

theorem Retirement.deregister {R : RegionId} (h : Retirement l (F + {.retiring R}))
    (free : l.uses R = false) :
    Retirement (l.log t (.deregistered R)) (F + {.deregisteredBy t R}) := by
  have given {x : Res} (held : x ∈ F) : x ∈ F + {.retiring R} := mem_add.mpr (.inl held)
  refine ⟨fun R' held => h.retiring R' (given (by simpa using held)), fun u R' held => ?_,
    fun u q Rs held => ?_, fun u R' told => ?_, ?_⟩
  · rcases mem_add.mp held with held | held
    · exact List.mem_cons_of_mem _ (h.deregistered u R' (given held))
    · cases mem_singleton.mp held
      exact List.mem_cons_self
  · obtain ⟨ops, told⟩ := h.admitted u q Rs (given (by simpa using held))
    exact ⟨ops, List.mem_cons_of_mem _ told⟩
  · rcases List.mem_cons.mp told with same | told
    · cases same
      exact ⟨h.retiring R (by simp), free⟩
    · exact h.gone u R' told
  · refine h.before.append [_] fun x mid last q Rs ops admitted => ?_
    obtain rfl := List.mem_singleton.mp (last.subset List.mem_cons_self)
    cases admitted

variable {T : Transport}

theorem Move.retirement {s s' : Ledger × T.State} (move : Move T t s X s' X')
    (h : Retirement s.1 (F + X)) : Retirement s'.1 (F + X') := by
  cases move with
  | touch => exact h
  | @deed l σ σ' q r fl X X' evs deed _ live =>
    rcases deed.held with ⟨held, flies, plain, silent⟩ | ⟨ops, rfl, rfl, rfl⟩
    · refine h.mono (evs.map (t, ·) ++ (changes (.transfer q) (l.reqs (.transfer q)) r).map (t, ·))
        (fun _ => id) (fun q' flying => ?_) (by simp) (fun e he => ?_) plain
      · by_cases same : q' = q
        · subst same
          cases fl with
          | true => exact ⟨by simpa [Ledger.flying] using flies rfl, by simpa using held⟩
          | false => simp at flying
        · cases fl <;> simp_all
      · rcases List.mem_append.mp he with told | change
        · obtain ⟨e, said, rfl⟩ := List.mem_map.mp told
          exact silent e said
        · exact silent_changes _ e change
    · exact h.admission (live _ ops (by simp))
  | @offer l _ _ p _ op taken _ =>
    refine h.mono [(t, .offered p.req op taken)] (fun _ => id) (fun _ flies => ⟨flies, rfl⟩)
      rfl ?_ ?_
    · simp
    · split <;> simp
  | land =>
    exact h.mono [] (fun _ => id) (fun _ flies => ⟨flies, rfl⟩) rfl (by simp)
      (by simp)
  | @poll _ _ _ _ _ _ _ evs =>
    refine h.mono (evs.map fun ev => (t, .reported ev)) (fun _ => id) (fun _ flies => ⟨flies, rfl⟩)
      rfl ?_ fun x hx => ?_
    · simp
    · obtain ⟨ev, -, rfl⟩ := List.mem_map.mp (mem_coe.mp hx)
      rfl
  | @reap _ _ _ qs =>
    refine h.mono (qs.map fun q => (t, .reaped q)) (fun _ => id) (fun q flies => ⟨?_, rfl⟩) rfl ?_
      fun x hx => ?_
    · exact (Finset.mem_sdiff.mp flies).1
    · simp
    · obtain ⟨q, -, rfl⟩ := List.mem_map.mp (mem_coe.mp hx)
      rfl
  | nextId | defer | forget =>
    exact h.mono [] (fun _ => id) (fun _ flies => ⟨flies, rfl⟩) rfl (by simp)
      (by simp)
  | sweep =>
    exact h.mono [_] (fun _ => id) (fun _ flies => ⟨flies, rfl⟩) rfl (by simp)
      (by simp)
  | drain =>
    refine h.mono [] (fun _ => id) (fun _ flies => ⟨flies, rfl⟩) rfl (by simp) fun x hx => ?_
    obtain ⟨p, -, rfl⟩ := List.mem_map.mp (mem_coe.mp hx)
    rfl
  | retire =>
    rw [add_zero] at h
    exact h.retire
  | deregister free => exact h.deregister free
  | @note l _ q r _ _ evs _ deed =>
    refine h.mono (evs.map (t, ·) ++ (changes (.note q) (l.reqs (.note q)) r).map (t, ·))
      (fun _ => id) (fun q' flies => ⟨flies, by simp⟩) (by simp) (fun e he => ?_) ?_
    · rcases List.mem_append.mp he with told | change
      · obtain ⟨e, said, rfl⟩ := List.mem_map.mp told
        cases deed <;> simp_all
      · exact silent_changes _ e change
    · cases deed <;> simp

variable {W : Type} [LaneCost W]

/-- What a submission that was accepted leaves behind. -/
theorem Call.post_submitted {c : Call} {loc : List RegionView}
    (names : c.transfer.map (·.2.1) = some loc) {h : Option Handle}
    (post : c.post t (.request .ok h) M) : ∃ q, M = {.admittedBy t q (loc.map (·.region))} := by
  have submitted : Submitted t loc (.request .ok h) M := by
    cases c <;> simp [Call.transfer] at names <;> subst names <;> exact post
  rcases submitted with ⟨s, refused, reply, -⟩ | ⟨q, -, given⟩
  · cases reply
    exact absurd rfl refused
  · exact ⟨q, given⟩

/-- When `deregister_memory` of a region has returned `kOk`, it has made its check.
In the state after the check and in every later one no request in flight holds
the region, and a submission that names it and had not been admitted by the check
does not return `kOk`. -/
theorem deregistration_excludes_transfers (setup : Setup W) (dir : Directory W) (σ : T.State)
    {p : Pools T W}
    (run : Runs setup dir σ (fun _ _ => True) p) (R : MemoryRegion) :
    (∀ t, p.returned t = some (.deregisterMemory R, .status .ok) →
      (t, .deregistered R.id) ∈ p.shared.ledger.trace) ∧
    ∀ newer t older, p.shared.ledger.trace = newer ++ (t, .deregistered R.id) :: older →
      (∀ q ∈ p.shared.ledger.inflight,
        R.id ∉ (p.shared.ledger.reqs (.transfer q)).heldRegions) ∧
      ∀ u c loc s h, p.returned u = some (c, .request s h) →
        c.transfer.map (·.2.1) = some loc → R.id ∈ loc.map (·.region) →
        (∀ q Rs ops, (u, .admitted q Rs ops) ∉ older) → s ≠ .ok := by
  obtain ⟨held, matched, -, retirement⟩ :=
    Run.lives (fun _ _ => True) (fun _ _ _ => True) (fun _ _ _ _ => trivial)
      (fun s M => Retirement s.1 M)
      ⟨by simp, by simp, by simp, by simp [World.start], by simp [Along, World.start]⟩
      (fun t s F X s' X' _ inv move _ => move.retirement inv) run
  refine ⟨fun t returned => ?_, fun newer t older checked => ⟨fun q flies holds => ?_, ?_⟩⟩
  · obtain ⟨M, within, post⟩ := matched.returned returned
    obtain rfl : M = {.deregisteredBy t R.id} := by simpa [Call.post] using post
    exact retirement.deregistered t R.id (mem_of_le within (by simp))
  · have free := (retirement.gone t R.id (by simp [checked])).2
    simp only [Ledger.uses, decide_eq_false_iff_not, not_exists, not_and] at free
    exact free q flies holds
  · rintro u c loc s h returned names named unadmitted rfl
    obtain ⟨M, within, post⟩ := matched.returned returned
    obtain ⟨q, rfl⟩ := Call.post_submitted names post
    obtain ⟨ops, admitted⟩ := retirement.admitted u q (loc.map (·.region))
      (mem_of_le within (by simp))
    simp only [checked, List.mem_append, List.mem_cons, Prod.mk.injEq, reduceCtorEq, and_false,
      false_or] at admitted
    rcases admitted with admitted | admitted
    · -- admitted after the check: the region would not have been retired
      obtain ⟨newest, later, parts⟩ := List.append_of_mem admitted
      rw [parts, List.append_assoc, List.cons_append] at checked
      exact retirement.before _ _ ⟨newest, checked.symm⟩ q _ ops rfl t R.id named (by simp)
    · exact unadmitted q _ ops admitted

/-- A write that has found the region when it is given back, and is refused. -/
theorem deregistration_excludes_transfers_late :
    ∃ p newer older, Pair.play .nothing (fun _ _ => true)
        [.spawn (Pair.write []), .run 0 10, .spawn (.deregisterMemory Pair.here), .run 1 4,
          .run 0 1] = some p ∧
      p.returned 0 = some (Pair.write [], .request .staleGeneration none) ∧
      p.returned 1 = some (.deregisterMemory Pair.here, .status .ok) ∧
      p.shared.ledger.trace = newer ++ (1, .deregistered 1) :: older ∧
      (∀ q ∈ p.shared.ledger.inflight, 1 ∉ (p.shared.ledger.reqs (.transfer q)).heldRegions) ∧
      ((∀ q Rs ops, (0, .admitted q Rs ops) ∉ older) → Status.staleGeneration ≠ .ok) := by
  obtain ⟨p, played, run, refused, returned⟩ := Pair.played .nothing (fun _ _ => True)
    [.spawn (Pair.write []), .run 0 10, .spawn (.deregisterMemory Pair.here), .run 1 4, .run 0 1]
    (fun p => p.returned 0 = some (Pair.write [], .request .staleGeneration none) ∧
      p.returned 1 = some (.deregisterMemory Pair.here, .status .ok)) (by decide +kernel)
  have excludes := deregistration_excludes_transfers (T := Pair.transport) Pair.setup
    Pair.directory Pair.state run Pair.here
  obtain ⟨newer, older, checked⟩ := List.append_of_mem (excludes.1 1 returned)
  obtain ⟨free, late⟩ := excludes.2 newer 1 older checked
  exact ⟨p, newer, older, played, refused, returned, checked, free,
    late 0 _ [⟨1, ⟨0, 8⟩⟩] .staleGeneration none refused rfl (by decide)⟩

end

end Hux
