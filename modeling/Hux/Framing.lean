import Mathlib.Data.List.Infix

/-!
# Streams cut into frames

A format says, from the beginning of a string, how long the frame at its head is, once
enough of the string is there to tell.

* `Cuts`: a string is whole frames and then what is not a whole frame;
* `Format.rest`: what is left after them;
* `Cuts.append`: a string read in pieces is cut as it is in one;
* `Cuts.contained`: of frames sent one after the other, the ones that have arrived whole.
-/

namespace Framing
variable {α : Type}

structure Format (α : Type) where
  /-- The length of the frame at the head, if it can be told yet. -/
  size : List α → Option Nat
  pos : ∀ {bs n}, size bs = some n → 0 < n
  stable : ∀ {bs n}, size bs = some n → ∀ more, size (bs ++ more) = some n
  within : ∀ {bs n}, size bs = some n → n ≤ bs.length → size (bs.take n) = some n

namespace Format
variable (F : Format α)

def Whole (f : List α) : Prop := F.size f = some f.length

/-- No whole frame stands at the head. -/
def Incomplete (bs : List α) : Prop := ∀ n, F.size bs = some n → bs.length < n

/-- Cuts off a frame as often as one is there, and at most so often. -/
def cut : Nat → List α → List (List α) × List α
  | 0, bs => ([], bs)
  | fuel + 1, bs =>
    match F.size bs with
    | some n => if n ≤ bs.length then
        (bs.take n :: (cut fuel (bs.drop n)).1, (cut fuel (bs.drop n)).2)
      else ([], bs)
    | none => ([], bs)

def frames (bs : List α) : List (List α) := (F.cut bs.length bs).1

def rest (bs : List α) : List α := (F.cut bs.length bs).2

end Format

/-- The string is these whole frames and then that, which is not one. -/
inductive Cuts (F : Format α) : List α → List (List α) → List α → Prop
  | done {bs : List α} : F.Incomplete bs → Cuts F bs [] bs
  | next {f bs rest : List α} {fs : List (List α)} : F.Whole f → Cuts F bs fs rest →
      Cuts F (f ++ bs) (f :: fs) rest

variable {F : Format α} {bs bs' r r' : List α} {fs fs' : List (List α)}

theorem Format.Whole.size_append {f : List α} (whole : F.Whole f) (more : List α) :
    F.size (f ++ more) = some f.length := F.stable whole more

theorem Format.Whole.ne_nil {f : List α} (whole : F.Whole f) : f ≠ [] := by
  rintro rfl
  exact absurd (F.pos whole) (Nat.lt_irrefl 0)

theorem Format.Incomplete.not_whole {f more : List α} (part : F.Incomplete (f ++ more)) :
    ¬F.Whole f := by
  intro whole
  have short := part _ (whole.size_append more)
  rw [List.length_append] at short
  omega

/-- Either no whole frame stands at the head, or one does. -/
theorem incomplete_or_whole (F : Format α) (bs : List α) :
    F.Incomplete bs ∨ ∃ f more, bs = f ++ more ∧ F.Whole f := by
  by_cases h : F.Incomplete bs
  · exact .inl h
  · simp only [Format.Incomplete, not_forall, Nat.not_lt] at h
    obtain ⟨n, size, fits⟩ := h
    refine .inr ⟨bs.take n, bs.drop n, (List.take_append_drop n bs).symm, ?_⟩
    rw [Format.Whole, F.within size fits, List.length_take, Nat.min_eq_left fits]

theorem Cuts.eq_append (cuts : Cuts F bs fs r) : bs = fs.flatten ++ r := by
  induction cuts with
  | done => rfl
  | next _ _ ih => rw [List.flatten_cons, List.append_assoc, ← ih]

theorem Cuts.whole (cuts : Cuts F bs fs r) : ∀ f ∈ fs, F.Whole f := by
  induction cuts with
  | done => simp
  | next whole _ ih => exact List.forall_mem_cons.mpr ⟨whole, ih⟩

theorem cuts_of_whole (whole : ∀ f ∈ fs, F.Whole f) (cuts : Cuts F r fs' r') :
    Cuts F (fs.flatten ++ r) (fs ++ fs') r' := by
  induction fs with
  | nil => exact cuts
  | cons f fs ih =>
    rw [List.flatten_cons, List.append_assoc, List.cons_append]
    exact .next (whole f List.mem_cons_self) (ih fun g hg => whole g (List.mem_cons_of_mem _ hg))

theorem Cuts.unique (cuts : Cuts F bs fs r) (cuts' : Cuts F bs fs' r') : fs = fs' ∧ r = r' := by
  induction cuts generalizing fs' with
  | @done bs part =>
    generalize eq : bs = b at cuts'
    cases cuts' with
    | done => exact ⟨rfl, rfl⟩
    | next whole =>
      rw [eq] at part
      exact absurd whole part.not_whole
  | @next f bs r fs whole cuts ih =>
    generalize eq : f ++ bs = b at cuts'
    cases cuts' with
    | done part =>
      rw [← eq] at part
      exact absurd whole part.not_whole
    | @next g bs' _ fs' whole' cuts' =>
      have sizes := (whole.size_append bs).symm.trans (eq ▸ whole'.size_append bs')
      obtain ⟨rfl, rfl⟩ := List.append_inj eq (Option.some.inj sizes)
      obtain ⟨rfl, rfl⟩ := ih cuts'
      exact ⟨rfl, rfl⟩

theorem cuts_cut {fuel : Nat} (enough : bs.length ≤ fuel) :
    Cuts F bs (F.cut fuel bs).1 (F.cut fuel bs).2 := by
  induction fuel generalizing bs with
  | zero =>
    obtain rfl := List.eq_nil_of_length_eq_zero (Nat.le_zero.mp enough)
    exact .done fun n size => F.pos size
  | succ fuel ih =>
    rcases incomplete_or_whole F bs with part | ⟨f, more, rfl, whole⟩
    · have stuck : F.cut (fuel + 1) bs = ([], bs) := by
        rw [Format.cut]
        cases size : F.size bs with
        | none => rfl
        | some n => exact if_neg (Nat.not_le.mpr (part n size))
      rw [stuck]
      exact .done part
    · have := List.length_pos_iff.mpr whole.ne_nil
      rw [List.length_append] at enough
      have step :
          F.cut (fuel + 1) (f ++ more) = (f :: (F.cut fuel more).1, (F.cut fuel more).2) := by
        simp only [Format.cut, whole.size_append more]
        rw [if_pos (by simp), List.take_left, List.drop_left]
      rw [step]
      exact .next whole (ih (by omega))

/-- Every string can be cut. -/
theorem cuts_frames (F : Format α) (bs : List α) : Cuts F bs (F.frames bs) (F.rest bs) :=
  cuts_cut le_rfl

theorem Cuts.rest_eq (cuts : Cuts F bs fs r) : F.rest bs = r :=
  ((cuts_frames F bs).unique cuts).2

/-- After whole frames, what is left is what is left of the rest. -/
theorem rest_append (whole : ∀ f ∈ fs, F.Whole f) (bs : List α) :
    F.rest (fs.flatten ++ bs) = F.rest bs :=
  (cuts_of_whole whole (cuts_frames F bs)).rest_eq

/-! ## Frames sent one after the other -/

section
variable {β : Type} {encode : β → List α} {gs : List β}

/-- The first of these frames that are over within so many bytes. -/
def contained (encode : β → List α) : List β → Nat → List β
  | [], _ => []
  | g :: gs, n =>
    if (encode g).length ≤ n then g :: contained encode gs (n - (encode g).length) else []

theorem mem_of_mem_contained {g : β} {n : Nat} (h : g ∈ contained encode gs n) : g ∈ gs := by
  induction gs generalizing n with
  | nil => exact h
  | cons g' gs ih =>
    rw [contained] at h
    split at h
    · rcases List.mem_cons.mp h with rfl | h
      · exact List.mem_cons_self
      · exact List.mem_cons_of_mem _ (ih h)
    · exact absurd h List.not_mem_nil

/-- What has arrived of a sequence of frames is cut into those that are over. -/
theorem Cuts.contained (cuts : Cuts F bs fs r) (whole : ∀ g ∈ gs, F.Whole (encode g))
    (arrived : bs <+: gs.flatMap encode) : fs = (contained encode gs bs.length).map encode := by
  induction gs generalizing bs fs with
  | nil =>
    obtain rfl := List.prefix_nil.mp arrived
    have none : fs.flatten = [] := (List.append_eq_nil_iff.mp cuts.eq_append.symm).1
    cases fs with
    | nil => rfl
    | cons f fs =>
      exact absurd (List.append_eq_nil_iff.mp none).1 (cuts.whole f List.mem_cons_self).ne_nil
  | cons g gs ih =>
    obtain ⟨first, later⟩ := List.forall_mem_cons.mp whole
    rw [List.flatMap_cons] at arrived
    by_cases fits : (encode g).length ≤ bs.length
    · obtain ⟨more, rfl⟩ :=
        List.prefix_of_prefix_length_le (List.prefix_append (encode g) _) arrived fits
      have rest := cuts_frames F more
      obtain ⟨rfl, rfl⟩ := cuts.unique (.next first rest)
      have arrived' : more <+: gs.flatMap encode := (List.prefix_append_right_inj _).mp arrived
      rw [Framing.contained, if_pos fits, ih rest later arrived', List.length_append,
        Nat.add_sub_cancel_left, List.map_cons]
    · rw [Framing.contained, if_neg fits]
      cases cuts with
      | done => rfl
      | @next f more _ fs' whole' _ =>
        obtain ⟨after, eq⟩ := arrived
        rw [List.append_assoc] at eq
        have sizes := (first.size_append (gs.flatMap encode)).symm.trans (eq ▸ whole'.size_append _)
        rw [List.length_append] at fits
        have := Option.some.inj sizes
        omega

/-- What is left is the beginning of a frame, if anything is. -/
theorem Cuts.rest_of_arrived (cuts : Cuts F bs fs r) (whole : ∀ g ∈ gs, F.Whole (encode g))
    (arrived : bs <+: gs.flatMap encode) : r = [] ∨ ∃ g ∈ gs, r <+: encode g := by
  induction gs generalizing bs fs with
  | nil =>
    obtain rfl := List.prefix_nil.mp arrived
    exact .inl (List.append_eq_nil_iff.mp cuts.eq_append.symm).2
  | cons g gs ih =>
    obtain ⟨first, later⟩ := List.forall_mem_cons.mp whole
    rw [List.flatMap_cons] at arrived
    by_cases fits : (encode g).length ≤ bs.length
    · obtain ⟨more, rfl⟩ :=
        List.prefix_of_prefix_length_le (List.prefix_append (encode g) _) arrived fits
      have rest := cuts_frames F more
      obtain ⟨rfl, rfl⟩ := cuts.unique (.next first rest)
      rcases ih rest later ((List.prefix_append_right_inj _).mp arrived) with none | ⟨g', hg', part⟩
      · exact .inl none
      · exact .inr ⟨g', List.mem_cons_of_mem _ hg', part⟩
    · have part : bs <+: encode g :=
        List.prefix_of_prefix_length_le arrived (List.prefix_append _ _) (by omega)
      have none := cuts.contained whole (by rw [List.flatMap_cons]; exact arrived)
      rw [Framing.contained, if_neg fits, List.map_nil] at none
      subst none
      have same := cuts.eq_append
      rw [List.flatten_nil, List.nil_append] at same
      exact .inr ⟨g, List.mem_cons_self, same ▸ part⟩

end

end Framing
