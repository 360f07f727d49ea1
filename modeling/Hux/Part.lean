import Hux.Interleave

/-!
# Programs on a part of a state

A program that works on a part of a larger state, and leaves the rest.
-/

namespace Interleave

/-- A part of a state that can be read and replaced. -/
structure Part (S S₁ : Type) where
  get : S → S₁
  put : S₁ → S → S
  get_put : ∀ a s, get (put a s) = a
  put_get : ∀ s, put (get s) s = s
  put_put : ∀ a b s, put a (put b s) = put a s

section
variable {S S₁ E α β Res : Type}

/-- The program run on the part. -/
def Prog.on (part : Part S S₁) : Prog S₁ E α → Prog S E α
  | .ret a => .ret a
  | .atom f k =>
    .atom (fun t s e => (f t (part.get s) e).map fun x => (x.1, part.put x.2 s))
      fun b => (k b).on part

/-- A move on the part that leaves the rest. -/
def Moves.on (part : Part S S₁) (move : Moves S₁ Res) : Moves S Res := fun t s M s' M' =>
  s' = part.put (part.get s') s ∧ move t (part.get s) M (part.get s') M'

variable {part : Part S S₁} {move : Moves S₁ Res} {t : Tid} {M : Multiset Res}

theorem Framed.on {s : S} {a : S₁} {M' : Multiset Res}
    (framed : Framed move t (part.get s) M a M') :
    Framed (Moves.on part move) t s M (part.put a s) M' := by
  obtain ⟨F, M₁, M₁', rfl, rfl, step⟩ := framed
  refine ⟨F, M₁, M₁', rfl, rfl, ?_, ?_⟩
  · rw [part.get_put]
  · rw [part.get_put]
    exact step

theorem Framed.of_on {s s' : S} {M' : Multiset Res}
    (framed : Framed (Moves.on part move) t s M s' M') :
    Framed move t (part.get s) M (part.get s') M' := by
  obtain ⟨F, M₁, M₁', rfl, rfl, -, step⟩ := framed
  exact ⟨F, M₁, M₁', rfl, rfl, step⟩

theorem Follows.on {p : Prog S₁ E α} {Q : α → Multiset Res → Prop}
    (follows : Follows move t p Q M) : Follows (Moves.on part move) t (p.on part) Q M := by
  induction p generalizing M with
  | ret a => exact follows
  | atom f k ih =>
    intro s e b s' step
    obtain ⟨x, hf, eq⟩ := Option.map_eq_some_iff.mp step
    cases eq
    obtain ⟨M', framed, rest⟩ := follows _ e _ _ hf
    exact ⟨M', framed.on, ih _ rest⟩

end

end Interleave
