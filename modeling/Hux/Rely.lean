import Hux.Alone

/-!
# Rely and guarantee

* `Stable`: what the steps of others do not make false;
* `Upholds`: as long as the others take the steps it relies on, a program takes
  those it guarantees, and it ends where its postcondition holds;
* `Onward.upholds`: what each call relies on is what the others guarantee.
-/

namespace Interleave
open Relation (ReflTransGen)

section
variable {C S E A α β : Type}

/-! ## Programs -/

/-- True before a step, it is true after it. -/
def Stable (G : S → S → Prop) (P : S → Prop) : Prop := ∀ s s', G s s' → P s → P s'

variable {P : S → Prop}

theorem Stable.later {G : S → S → Prop} (stable : Stable G P) {s s' : S}
    (later : ReflTransGen G s s') (h : P s) : P s' := by
  induction later with
  | refl => exact h
  | tail _ step ih => exact stable _ _ step ih

theorem Stable.and {G : S → S → Prop} {P' : S → Prop} (h : Stable G P) (h' : Stable G P') :
    Stable G fun s => P s ∧ P' s :=
  fun s s' step both => ⟨h s s' step both.1, h' s s' step both.2⟩

/-- Run by thread `t` from `s` on, among steps in `R`: those of its own steps
that meet `ok` are in `G`, and it returns what and where `Q` says. -/
def Upholds (R G ok : S → S → Prop) (t : Tid) : Prog S E α → (α → S → Prop) → S → Prop
  | .ret a, Q, s => Q a s
  | .atom f k, Q, s => ∀ s₁, ReflTransGen R s s₁ → ∀ e b s', f t s₁ e = some (b, s') →
      ok s₁ s' → G s₁ s' ∧ Upholds R G ok t (k b) Q s'

/-- Where all take the same steps. -/
abbrev Relies (G ok : S → S → Prop) (t : Tid) (p : Prog S E α) (Q : α → S → Prop) (s : S) : Prop :=
  Upholds G G ok t p Q s

namespace Upholds
variable {R G ok : S → S → Prop} {t : Tid} {s s' : S} {Q : α → S → Prop}

/-- What is known before an atom is known when it runs. -/
theorem atom {γ : Type} {f : Tid → S → E → Option (γ × S)} {k : γ → Prog S E α} {P : S → Prop}
    (stable : Stable R P) (before : P s)
    (step : ∀ s e b s', P s → f t s e = some (b, s') → ok s s' →
      G s s' ∧ Upholds R G ok t (k b) Q s') : Upholds R G ok t (.atom f k) Q s :=
  fun _ later e b s' hf hok => step _ e b s' (stable.later later before) hf hok

variable {p : Prog S E α}

theorem weaken {Q' : α → S → Prop} (h : Upholds R G ok t p Q s) (weaker : ∀ a s, Q a s → Q' a s) :
    Upholds R G ok t p Q' s := by
  induction p generalizing s with
  | ret a => exact weaker a s h
  | atom f k ih =>
    intro s₁ later e b s' hf hok
    obtain ⟨moved, rest⟩ := h s₁ later e b s' hf hok
    exact ⟨moved, ih b rest⟩

theorem bind {g : α → Prog S E β} {Q' : β → S → Prop} (h : Upholds R G ok t p Q s)
    (rest : ∀ a s, Q a s → Upholds R G ok t (g a) Q' s) : Upholds R G ok t (p >>= g) Q' s := by
  induction p generalizing s with
  | ret a => exact rest a s h
  | atom f k ih =>
    intro s₁ later e b s' hf hok
    obtain ⟨moved, more⟩ := h s₁ later e b s' hf hok
    exact ⟨moved, ih b more⟩

theorem later (stable : ∀ a, Stable R (Q a)) (h : Upholds R G ok t p Q s)
    (on : ReflTransGen R s s') : Upholds R G ok t p Q s' := by
  cases p with
  | ret a => exact (stable a).later on h
  | atom f k => exact fun s₁ later => h s₁ (on.trans later)

/-- The same program among fewer steps. -/
theorem narrow {R' G' ok' : S → S → Prop} (h : Upholds R G ok t p Q s)
    (fewer : ∀ s s', R' s s' → R s s') (stricter : ∀ s s', ok' s s' → ok s s')
    (still : ∀ s s', G s s' → ok' s s' → G' s s') : Upholds R' G' ok' t p Q s := by
  induction p generalizing s with
  | ret a => exact h
  | atom f k ih =>
    intro s₁ later e b s' hf hok
    obtain ⟨moved, rest⟩ := h s₁ (ReflTransGen.mono fewer _ _ later) e b s' hf (stricter _ _ hok)
    exact ⟨still _ _ moved hok, ih b rest⟩

/-- The same program, of which less is guaranteed. -/
theorem widen {G' : S → S → Prop} (h : Upholds R G ok t p Q s) (wider : ∀ s s', G s s' → G' s s') :
    Upholds R G' ok t p Q s :=
  h.narrow (fun _ _ step => step) (fun _ _ met => met) fun s s' step _ => wider s s' step

/-- With what no step makes false. -/
theorem frame {F : S → Prop} (h : Upholds R G ok t p Q s) (others : Stable R F)
    (self : Stable G F) (before : F s) : Upholds R G ok t p (fun a s => Q a s ∧ F s) s := by
  induction p generalizing s with
  | ret a => exact ⟨h, before⟩
  | atom f k ih =>
    intro s₁ later e b s' hf hok
    obtain ⟨moved, rest⟩ := h s₁ later e b s' hf hok
    exact ⟨moved, ih b rest (self _ _ moved (others.later later before))⟩

/-- With what is known of its result whatever the others do. -/
theorem knowing {Res : Type} {move : Moves S Res} {M : Multiset Res} {P : α → Prop}
    (h : Upholds R G ok t p Q s) (returns : Follows move t p (fun a _ => P a) M) :
    Upholds R G ok t p (fun a s => Q a s ∧ P a) s := by
  induction p generalizing s M with
  | ret a => exact ⟨h, returns⟩
  | atom f k ih =>
    intro s₁ later e b s' hf hok
    obtain ⟨moved, rest⟩ := h s₁ later e b s' hf hok
    obtain ⟨M', -, returns⟩ := returns s₁ e b s' hf
    exact ⟨moved, ih b rest returns⟩

end Upholds

variable {ok : S → S → Prop} {t : Tid}

/-- A program all of whose steps are in a relation learns nothing and keeps
what is known. -/
theorem Steps.upholds {R G G' : S → S → Prop} {p : Prog S E α} (steps : Steps G' p)
    (sub : ∀ s s', G' s s' → ok s s' → G s s') (others : Stable R P)
    (self : Stable (fun s s' => G' s s' ∧ ok s s') P) {s : S} (before : P s) :
    Upholds R G ok t p (fun _ => P) s := by
  induction p generalizing s with
  | ret a => exact before
  | atom f k ih =>
    refine .atom others before fun s e b s' known hf hok => ?_
    have step := steps.1 t s e b s' hf
    exact ⟨sub s s' step hok, ih b (steps.2 b) (self s s' ⟨step, hok⟩ known)⟩

/-! ## Pools -/

/-- Every call relies on its steps and will return as it should. -/
def Pool.Upheld (R G : Tid → S → S → Prop) (ok : S → S → Prop) (post : Tid → C → A → S → Prop)
    (p : Pool C S E A) : Prop :=
  ∀ t th, p.threads[t]? = some th →
    Upholds (R t) (G t) ok t th.prog (post t th.call) p.shared

abbrev Pool.Reliant (G ok : S → S → Prop) (post : Tid → C → A → S → Prop) (p : Pool C S E A) :
    Prop :=
  p.Upheld (fun _ => G) (fun _ => G) ok post

variable {R G : Tid → S → S → Prop} {post : Tid → C → A → S → Prop}

theorem Pool.upheld_start (s : S) : (Pool.start s : Pool C S E A).Upheld R G ok post := by
  intro t th hth
  cases hth

variable {body : C → Prog S E A} {p p' : Pool C S E A}

theorem Pool.step_length {a : Act C E} (hs : p.step body a = some p') :
    p.threads.length ≤ p'.threads.length := by
  cases a with
  | spawn c =>
    cases hs
    simp
  | run u e =>
    obtain ⟨_, _, _, _, _, -, -, set⟩ := Pool.step_run hs
    simp [set]

/-- A step of a call is one of those it guarantees. -/
theorem Pool.Upheld.step (each : p.Upheld R G ok post) {e : E}
    (hs : p.step body (.run t e) = some p') (hok : ok p.shared p'.shared) :
    G t p.shared p'.shared := by
  obtain ⟨_, _, f, k, b, ht, hf, -⟩ := Pool.step_run hs
  exact (each t _ ht p.shared .refl e b _ hf hok).1

/-- One step of one call, with what every other call makes of it. -/
theorem Pool.step_upheld {Inv : S → Prop} (inv : ∀ t, Stable (G t) Inv)
    (others : ∀ t u s s', t ≠ u → G u s s' → R t s s')
    (posts : ∀ t c r, Stable (R t) (post t c r)) {a : Act C E} (hs : p.step body a = some p')
    (hok : ok p.shared p'.shared)
    (calls : ∀ t th, p'.threads[t]? = some th → p.threads[t]? = none → Inv p.shared →
      Upholds (R t) (G t) ok t (body th.call) (post t th.call) p.shared)
    (known : Inv p.shared) (each : p.Upheld R G ok post) :
    Inv p'.shared ∧ p'.Upheld R G ok post ∧
      (p'.shared = p.shared ∨ ∃ t, G t p.shared p'.shared) := by
  cases a with
  | spawn c =>
    refine ⟨Option.some.inj hs ▸ known, fun t th hth => ?_, .inl (Option.some.inj hs ▸ rfl)⟩
    rcases Pool.step_threads hs hth with ⟨old, -⟩ | ⟨rfl, c, -, rfl⟩ | ⟨_, _, _, _, _, _, is, -⟩
    · exact Option.some.inj hs ▸ each t th old
    · exact Option.some.inj hs ▸ calls _ _ hth (List.getElem?_eq_none le_rfl) known
    · cases is
  | run u e =>
    have moved := each.step hs hok
    refine ⟨inv u _ _ moved known, fun t th hth => ?_, .inr ⟨u, moved⟩⟩
    rcases Pool.step_threads hs hth with ⟨old, other⟩ | ⟨-, _, is, -⟩ |
      ⟨e, c, _, f, k, b, is, there, hf, rfl⟩
    · have seen := others t u _ _ (fun same => other e (same ▸ rfl)) moved
      exact (each t th old).later (posts t th.call) (.single seen)
    · cases is
    · exact (each t _ there p.shared .refl e b _ hf hok).2

/-- Along steps that all meet `ok`, every call gets what it relies on, because
every other call guarantees it. `who` is what is known in advance of the calls. -/
theorem Onward.upholds (Inv : S → Prop) (who : Tid → C → Prop) (inv : ∀ t, Stable (G t) Inv)
    (others : ∀ t u s s', t ≠ u → G u s s' → R t s s')
    (posts : ∀ t c r, Stable (R t) (post t c r))
    (calls : ∀ t c s, p.threads.length ≤ t → who t c → Inv s →
      Upholds (R t) (G t) ok t (body c) (post t c) s)
    (on : Onward body ok p p') (known : Inv p.shared) (each : p.Upheld R G ok post)
    (whose : ∀ t th, p'.threads[t]? = some th → who t th.call) :
    Inv p'.shared ∧ p'.Upheld R G ok post ∧
      ReflTransGen (fun s s' => ∃ t, G t s s') p.shared p'.shared := by
  have main : p.threads.length ≤ p'.threads.length ∧
      ((∀ t th, p'.threads[t]? = some th → who t th.call) →
        Inv p'.shared ∧ p'.Upheld R G ok post ∧
          ReflTransGen (fun s s' => ∃ t, G t s s') p.shared p'.shared) := by
    clear whose
    induction on with
    | refl => exact ⟨le_rfl, fun _ => ⟨known, each, .refl⟩⟩
    | @tail q q' _ step ih =>
      obtain ⟨⟨a, hs⟩, hok⟩ := step
      refine ⟨ih.1.trans (Pool.step_length hs), fun whose => ?_⟩
      have before : ∀ t th, q.threads[t]? = some th → who t th.call := by
        intro t th hth
        obtain ⟨th', hth', same⟩ := Pool.step_calls hs hth
        exact same ▸ whose t th' hth'
      obtain ⟨known, each, on⟩ := ih.2 before
      have new : ∀ t th, q'.threads[t]? = some th → q.threads[t]? = none → Inv q.shared →
          Upholds (R t) (G t) ok t (body th.call) (post t th.call) q.shared := by
        intro t th hth fresh known
        have young := ih.1.trans (List.getElem?_eq_none_iff.mp fresh)
        exact calls t th.call q.shared young (whose t th hth) known
      obtain ⟨known', each', same | moved⟩ :=
        Pool.step_upheld inv others posts hs hok new known each
      · exact ⟨known', each', same ▸ on⟩
      · exact ⟨known', each', on.tail moved⟩
  exact main.2 whose

/-- The same where all take the same steps. -/
theorem Onward.relies {G : S → S → Prop} (Inv : S → Prop) (who : Tid → C → Prop)
    (inv : Stable G Inv) (posts : ∀ t c r, Stable G (post t c r))
    (calls : ∀ t c s, p.threads.length ≤ t → who t c → Inv s → Relies G ok t (body c) (post t c) s)
    (on : Onward body ok p p') (known : Inv p.shared) (each : p.Reliant G ok post)
    (whose : ∀ t th, p'.threads[t]? = some th → who t th.call) :
    Inv p'.shared ∧ p'.Reliant G ok post ∧ ReflTransGen G p.shared p'.shared := by
  obtain ⟨known, each, later⟩ := on.upholds Inv who (fun _ => inv) (fun _ _ _ _ _ h => h) posts
    calls known each whose
  exact ⟨known, each, ReflTransGen.mono (fun _ _ h => h.choose_spec) _ _ later⟩

/-- What a call has returned with. -/
theorem Pool.Upheld.returned (each : p.Upheld R G ok post) {c : C} {r : A}
    (done : p.returned t = some (c, r)) : post t c r p.shared :=
  each t _ (Pool.threads_of_returned done)

end

end Interleave
