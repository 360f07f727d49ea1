import Hux.Frames

/-!
# The inbox

What is read from a socket is put back together into frames, however it was cut.

* `reader_in_bounds_iff`: the reader leaves the inbox exactly where a length wraps in 32
  bits;
* `frames_reassembled`: the frames taken are those that have arrived whole, and the control
  messages are theirs.
-/

namespace Hux.Ipc
open Wire (Bytes leAt)
open Framing (Cuts contained)
open Interleave (Pool Run)
open Interleave.Scripted (loop Does)
open Relation (ReflTransGen)

/-- What the reading of frames leaves behind. -/
structure Inflow where
  inbox : Bytes
  read : Bytes
  parses : List Nat
  frames : List Frame
  faults : List (Nat × Nat)
  messages : List (Nat × Bytes)

/-- A message as it was sent. -/
def sentAs (m : ControlMessage) : Nat × Bytes := (m.type, m.payload)

def World.inflow (w : World) : Inflow where
  inbox := w.inbox
  read := w.past.read
  parses := w.past.parses
  frames := w.past.frames
  faults := w.past.faults
  messages := (w.past.handed ++ w.control).map sentAs

/-- A header whose frame, with its header, is longer than 32 bits can say. -/
def Wraps (bs : Bytes) : Prop := 6 ≤ bs.length ∧ 2 ^ 32 ≤ 6 + leAt bs 0 4

instance (bs : Bytes) : Decidable (Wraps bs) :=
  inferInstanceAs (Decidable (6 ≤ bs.length ∧ 2 ^ 32 ≤ 6 + leAt bs 0 4))

theorem Wrapping.incomplete {inbox : Bytes} (wrapping : Wrapping inbox) :
    framing.Incomplete inbox := by
  intro n size
  obtain ⟨-, rfl⟩ := frameSize_eq_some.mp size
  exact wrapping.2.2

namespace Inflow

/-- What is left of the first `n` bytes read after the whole frames among them. -/
def restOf (s : Inflow) (n : Nat) : Bytes := framing.rest (s.read.take n)

/-- A frame is taken, and the inbox is the rest. -/
def took (s : Inflow) (f : Frame) (rest : Bytes) : Inflow :=
  { s with
    inbox := rest
    frames := s.frames ++ [f]
    messages := s.messages ++ f.control?.toList }

/-- What the reading of frames does to it. -/
inductive Step (s : Inflow) : Inflow → Prop
  | still : Step s s
  | received (bs : Bytes) : Step s { s with inbox := s.inbox ++ bs, read := s.read ++ bs }
  | looked : Step s { s with parses := s.parses ++ [s.read.length] }
  | took {f : Frame} {rest : Bytes} : f.Sized → s.inbox = f.encode ++ rest → Step s (s.took f rest)
  /-- The end of the inbox is passed. -/
  | fault {s' : Inflow} : Wrapping s.inbox → s'.read = s.read → s'.parses = s.parses →
      s.faults <+: s'.faults → s'.faults ≠ [] → Step s s'

/-- Everything read is the frames taken, one after the other, and the inbox. -/
structure Reading (s : Inflow) : Prop where
  fine : s.faults = []
  read : s.read = s.frames.flatMap Frame.encode ++ s.inbox
  sized : ∀ f ∈ s.frames, f.Sized
  messages : s.messages = s.frames.filterMap Frame.control?

def Clear (s : Inflow) (ns : List Nat) : Prop :=
  ∀ n ∈ ns, n ≤ s.read.length ∧ ¬Wraps (s.restOf n)

/-- Between two pumps. -/
structure Good (s : Inflow) : Prop extends Reading s where
  clear : s.Clear s.parses
  incomplete : framing.Incomplete s.inbox

/-- A read past the end of the inbox has happened, and why. -/
structure Broken (s : Inflow) : Prop where
  faults : s.faults ≠ []
  wrapped : ∃ n ∈ s.parses, n ≤ s.read.length ∧ Wraps (s.restOf n)

/-- Frames are being looked for in all that has been read. -/
structure Looking (s : Inflow) : Prop extends Reading s where
  clear : ∃ old, s.parses = old ++ [s.read.length] ∧ s.Clear old

variable {s s' : Inflow}

variable {more : Bytes}

theorem restOf_grown {n : Nat} (known : n ≤ s.read.length) (grown : s'.read = s.read ++ more) :
    s'.restOf n = s.restOf n := by
  rw [restOf, restOf, grown, List.take_append_of_le_length known]

theorem Clear.grown {ns : List Nat} (clear : s.Clear ns) (grown : s'.read = s.read ++ more) :
    s'.Clear ns := by
  intro n hn
  obtain ⟨known, fine⟩ := clear n hn
  rw [restOf_grown known grown]
  exact ⟨by rw [grown, List.length_append]; omega, fine⟩

theorem Broken.grown (broken : s.Broken) (grown : s'.read = s.read ++ more)
    (parses : s.parses <+: s'.parses) (faults : s.faults <+: s'.faults) : s'.Broken := by
  obtain ⟨n, hn, known, wraps⟩ := broken.wrapped
  refine ⟨fun none => broken.faults ?_, n, parses.subset hn, ?_, ?_⟩
  · rw [none] at faults
    exact List.prefix_nil.mp faults
  · rw [grown, List.length_append]
    omega
  · rw [restOf_grown known grown]
    exact wraps

/-- What is left of all that has been read is what is left of the inbox. -/
theorem Reading.restOf_all (reading : s.Reading) :
    s.restOf s.read.length = framing.rest s.inbox := by
  rw [restOf, List.take_length, reading.read, List.flatMap_def]
  refine Framing.rest_append (fun f hf => ?_) s.inbox
  obtain ⟨g, hg, rfl⟩ := List.mem_map.mp hf
  exact (reading.sized g hg).whole

theorem Looking.took (looking : s.Looking) {f : Frame} {rest : Bytes} (sized : f.Sized)
    (inbox : s.inbox = f.encode ++ rest) : (s.took f rest).Looking := by
  obtain ⟨⟨fine, read, sizes, messages⟩, old, parses, clear⟩ := looking
  refine ⟨⟨fine, ?_, ?_, ?_⟩, old, parses, clear.grown (List.append_nil _).symm⟩
  · simp only [Inflow.took, List.flatMap_append, List.flatMap_singleton, List.append_assoc]
    rw [← inbox]
    exact read
  · intro g hg
    rcases List.mem_append.mp hg with old | new
    · exact sizes g old
    · rw [List.mem_singleton.mp new]
      exact sized
  · simp only [Inflow.took, List.filterMap_append, messages]
    cases h : f.control? <;> simp [h]

/-- Where the reader goes past the end, a length has wrapped. -/
theorem Looking.fault (looking : s.Looking) (wrapping : Wrapping s.inbox)
    (read : s'.read = s.read) (parses : s'.parses = s.parses) (faults : s'.faults ≠ []) :
    s'.Broken := by
  obtain ⟨reading, old, last, -⟩ := looking
  refine ⟨faults, s.read.length, ?_, read.symm ▸ le_rfl, ?_⟩
  · rw [parses, last]
    exact List.mem_append_right _ (List.mem_singleton_self _)
  · rw [restOf, read]
    change Wraps (s.restOf s.read.length)
    rw [reading.restOf_all, (Cuts.done wrapping.incomplete).rest_eq]
    exact ⟨wrapping.1, wrapping.2.1⟩

theorem Broken.step (broken : s.Broken) (step : Step s s') : s'.Broken := by
  cases step with
  | still => exact broken
  | received bs => exact broken.grown rfl List.prefix_rfl List.prefix_rfl
  | looked => exact broken.grown (List.append_nil _).symm (List.prefix_append _ _) List.prefix_rfl
  | took => exact broken.grown (List.append_nil _).symm List.prefix_rfl List.prefix_rfl
  | fault _ read parses faults =>
    exact broken.grown (read.trans (List.append_nil _).symm) (parses ▸ List.prefix_rfl) faults

end Inflow

open Inflow (Reading Good Broken Looking)

/-! ## The provider's steps -/

variable {w w' : World} {f : Frame}

theorem Sends.inflow_eq {st : Status} (sends : Sends w f st w') : w'.inflow = w.inflow := by
  cases sends <;> rfl

variable {mode : Mode}

/-- Only the reading of frames touches the stream. -/
theorem Plain.inflow_eq (plain : Plain mode w w') : w'.inflow = w.inflow := by
  cases plain with
  | sent _ sends => exact sends.inflow_eq
  | published _ sends => exact sends.inflow_eq
  | deregisters h =>
    cases h with
    | unknown => rfl
    | unconnected => rfl
    | unsent _ _ sends => exact sends.inflow_eq
    | waits _ _ _ sends => exact sends.inflow_eq
    | late _ _ sends => exact sends.inflow_eq
  | checks h => cases h <;> rfl
  | dropped =>
    unfold World.dropSocket
    split <;> rfl
  | handed n => simp [World.inflow]
  | _ => rfl

theorem plain_inflow_eq (steps : ReflTransGen (Plain mode) w w') : w'.inflow = w.inflow := by
  induction steps with
  | refl => rfl
  | tail _ last ih => exact last.inflow_eq.trans ih

theorem control?_of_type (other : f.type ≠ kFrameControl) : f.control? = none :=
  if_neg fun h => other h.1

/-- A frame adds its message, if it is one. -/
theorem Effect.inflow_eq (effect : Effect (w.heard f) f w') :
    w'.inflow = w.inflow.took f w.inbox := by
  have silent {w₁ : World} (same : w₁.inflow = (w.heard f).inflow) (none : f.control? = none) :
      w₁.inflow = w.inflow.took f w.inbox := by
    rw [same, Inflow.took, none, Option.toList_none, List.append_nil]
    rfl
  cases effect with
  | control asked =>
    simp [World.inflow, Inflow.took, World.addControl, World.heard, World.note, sentAs, asked]
  | publish asked =>
    refine silent rfl (control?_of_type fun is => ?_)
    unfold Frame.publish? at asked
    split at asked
    · rename_i h
      exact absurd (is.symm.trans h.1) (by decide)
    · cases asked
  | withdraw asked withdrawn _ sends =>
    refine silent (sends.inflow_eq.trans ?_) (control?_of_type fun is => ?_)
    · cases withdrawn <;> rfl
    · unfold Frame.withdraw? at asked
      split at asked
      · rename_i h
        exact absurd (is.symm.trans h.1) (by decide)
      · cases asked
  | withdrawAck asked =>
    refine silent ?_ (control?_of_type fun is => ?_)
    · unfold World.acknowledge
      split <;> rfl
    · unfold Frame.withdrawAck? at asked
      split at asked
      · rename_i h
        exact absurd (is.symm.trans h.1) (by decide)
      · cases asked
  | nothing none => exact silent rfl none

/-- Past the end of the inbox only the faults are sure to change. -/
theorem fault_inflow {upto size : Nat} (effect : Effect (w.heard f) f w' ∨ w' = w.heard f) :
    let after := (w'.note fun p => { p with faults := p.faults ++ [(upto, size)] }).inflow
    after.read = w.inflow.read ∧ after.parses = w.inflow.parses ∧
      w.inflow.faults <+: after.faults ∧ after.faults ≠ [] := by
  have faults : (w'.note fun p => { p with faults := p.faults ++ [(upto, size)] }).inflow.faults =
      w'.inflow.faults ++ [(upto, size)] := rfl
  have same : w'.inflow = w.inflow.took f w.inbox ∨ w'.inflow = (w.heard f).inflow := by
    rcases effect with effect | rfl
    · exact .inl effect.inflow_eq
    · exact .inr rfl
  refine ⟨?_, ?_, ?_, by rw [faults]; simp⟩
  · change w'.inflow.read = w.inflow.read
    rcases same with same | same <;> rw [same] <;> rfl
  · change w'.inflow.parses = w.inflow.parses
    rcases same with same | same <;> rw [same] <;> rfl
  · have before : w'.inflow.faults = w.inflow.faults := by
      rcases same with same | same <;> rw [same] <;> rfl
    rw [faults, before]
    exact List.prefix_append _ _

theorem Reads.inflow (reads : Reads w w') : Inflow.Step w.inflow w'.inflow := by
  cases reads with
  | received => exact .received _
  | ended => exact .still
  | looked => exact .looked
  | @took f w' rest sized inbox effect =>
    have same : ({ w' with inbox := rest } : World).inflow = w.inflow.took f rest := by
      change { w'.inflow with inbox := rest } = _
      rw [effect.inflow_eq]
      rfl
    rw [same]
    exact .took sized inbox
  | fault wrapping effect =>
    obtain ⟨read, parses, earlier, faults⟩ := fault_inflow effect
    exact .fault wrapping read parses earlier faults

theorem Deed.broken (deed : Deed mode w w') (broken : w.inflow.Broken) : w'.inflow.Broken := by
  rcases deed with plain | reads
  · rw [plain.inflow_eq]
    exact broken
  · exact broken.step reads.inflow

/-! ## Taking frames -/

/-- The reader stops only where no whole frame is left, and none that wraps. -/
theorem stopped_incomplete {inbox : Bytes}
    (stopped : inbox.length < 6 ∨ inbox.length < u32 (6 + leAt inbox 0 4)) :
    framing.Incomplete inbox ∧ ¬Wraps inbox := by
  rcases stopped with few | part
  · refine ⟨fun n size => ?_, fun wraps => absurd wraps.1 (Nat.not_le.mpr few)⟩
    exact absurd (frameSize_eq_some.mp size).1 (Nat.not_le.mpr few)
  · have below : u32 (6 + leAt inbox 0 4) ≤ 6 + leAt inbox 0 4 := Nat.mod_le _ _
    refine ⟨fun n size => ?_, fun wraps => ?_⟩
    · obtain ⟨-, rfl⟩ := frameSize_eq_some.mp size
      omega
    · have long := Wire.leAt_lt inbox 0 4
      have wrapped := wraps.2
      have six := wraps.1
      unfold u32 at part
      omega

/-- One turn: a frame moves from the inbox to the frames, or the reader stops, or it goes
past the end. -/
theorem Turn.looking {more : Bool} (turn : Turn w more w') (looking : w.inflow.Looking) :
    more = true ∧ w'.inflow.Looking ∧ w'.inbox.length < w.inbox.length ∨
      more = false ∧ (w' = w ∧ framing.Incomplete w.inbox ∧ ¬Wraps w.inbox ∨ w'.inflow.Broken) := by
  cases turn with
  | @took f w' rest sized inbox effect =>
    refine .inl ⟨rfl, ?_, ?_⟩
    · have same : ({ w' with inbox := rest } : World).inflow = w.inflow.took f rest := by
        change { w'.inflow with inbox := rest } = _
        rw [effect.inflow_eq]
        rfl
      rw [same]
      exact looking.took sized inbox
    · have := length_encode f
      dsimp only
      rw [inbox, List.length_append]
      omega
  | stopped stopped => exact .inr ⟨rfl, .inl ⟨rfl, stopped_incomplete stopped⟩⟩
  | fault wrapping effect =>
    obtain ⟨read, parses, -, faults⟩ := fault_inflow effect
    exact .inr ⟨rfl, .inr (looking.fault wrapping read parses faults)⟩

theorem parse_inflow (fd fuel : Nat) :
    Does (fun w => w.sock = some fd ∧ w.inflow.Looking ∧ w.inbox.length ≤ fuel) (fun _ _ => True)
      (parse fd fuel) fun _ w => w.inflow.Good ∨ w.inflow.Broken := by
  have rest {w : World} (looking : w.inflow.Looking)
      (stopped : framing.Incomplete w.inbox ∧ ¬Wraps w.inbox) : w.inflow.Good := by
    obtain ⟨reading, old, parses, clear⟩ := looking
    refine ⟨reading, ?_, stopped.1⟩
    rw [parses]
    intro n hn
    rcases List.mem_append.mp hn with earlier | last
    · exact clear n earlier
    · rw [List.mem_singleton.mp last]
      refine ⟨le_rfl, ?_⟩
      have all := reading.restOf_all
      rw [(Cuts.done stopped.1 : Cuts framing w.inflow.inbox [] _).rest_eq] at all
      rw [all]
      exact stopped.2
  induction fuel with
  | zero =>
    refine .pure fun w h => .inl (rest h.2.1 (stopped_incomplete (.inl ?_)))
    have := h.2.2
    omega
  | succ fuel ih =>
    refine .bind (Q := fun more w => more = true ∧ w.sock = some fd ∧ w.inflow.Looking ∧
      w.inbox.length ≤ fuel ∨ more = false ∧ (w.inflow.Good ∨ w.inflow.Broken))
      (.once fun w₀ h => ?_) fun more => .ite (fun is => ?_) fun isnt => .pure ?_
    · obtain ⟨connected, looking, enough⟩ := h
      refine (takeFrame_does connected).weaken (fun _ h => h) fun more w turn => ⟨trivial, ?_⟩
      rcases turn.looking looking with ⟨is, looking', less⟩ | ⟨isnt, ⟨rfl, stopped⟩ | broken⟩
      · exact .inl ⟨is, turn.sock_eq.trans connected, looking', by omega⟩
      · exact .inr ⟨isnt, .inl (rest looking stopped)⟩
      · exact .inr ⟨isnt, .inr broken⟩
    · refine ih.weaken ?_ fun _ _ h => h
      rintro w (⟨-, h⟩ | ⟨isnt, -⟩)
      · exact h
      · rw [isnt] at is
        cases is
    · rintro w (⟨is, -⟩ | ⟨-, h⟩)
      · exact absurd is isnt
      · exact h

/-! ## Pumps -/

theorem recv_inflow (fd : Nat) :
    Does (fun w => w.sock = some fd ∧ w.inflow.Reading ∧ w.inflow.Clear w.past.parses)
      (fun _ _ => True) (loop recvStep ())
      fun _ w => w.sock = some fd ∧ w.inflow.Reading ∧ w.inflow.Clear w.past.parses := by
  have keep {u : Unit} {w w' : World} {e : Answer} {x : Unit ⊕ Bool}
      (h : recvStep u w e = some (x, w'))
      (inv : w.sock = some fd ∧ w.inflow.Reading ∧ w.inflow.Clear w.past.parses) :
      w'.sock = some fd ∧ w'.inflow.Reading ∧ w'.inflow.Clear w'.past.parses := by
    obtain ⟨connected, ⟨fine, read, sized, messages⟩, clear⟩ := inv
    unfold recvStep at h
    split at h
    · rename_i bs
      split at h
      · cases h
      · cases h
        refine ⟨connected, ⟨fine, ?_, sized, messages⟩, clear.grown rfl⟩
        change w.past.read ++ bs = w.past.frames.flatMap Frame.encode ++ (w.inbox ++ bs)
        rw [← List.append_assoc]
        exact congrArg (· ++ bs) read
    all_goals
      cases h
    all_goals exact ⟨connected, ⟨fine, read, sized, messages⟩, clear⟩
  refine .loop (I := fun _ (w : World) => w.sock = some fd ∧ w.inflow.Reading ∧
    w.inflow.Clear w.past.parses) ?_ ?_ ()
  · exact fun _ _ _ _ _ inv h => ⟨trivial, keep h inv⟩
  · exact fun _ _ _ _ _ inv h => ⟨trivial, keep h inv⟩

theorem pumpLocked_inflow (fd : Nat) :
    Does (fun w => w.inflow.Good) (fun _ _ => True) (pumpLocked fd)
      fun _ w => w.inflow.Good ∨ w.inflow.Broken := by
  refine .bind (.get (Q := fun sock w => sock = w.sock ∧ w.inflow.Good) fun _ h => ⟨rfl, h⟩)
    fun sock => .ite (fun _ => .pure fun _ h => .inl h.2) fun connected => ?_
  have connected := not_not.mp connected
  refine .bind ((recv_inflow fd).weaken ?_ fun _ _ h => h) fun closed => ?_
  · rintro w ⟨same, good⟩
    exact ⟨same.symm.trans connected.symm, good.toReading, good.clear⟩
  refine .bind (.set (Q := fun _ w => w.sock = some fd ∧ w.inflow.Looking) ?_) fun _ => ?_
  · rintro w ⟨connected, reading, clear⟩
    refine ⟨trivial, connected, ⟨reading.fine, reading.read, reading.sized, reading.messages⟩, ?_⟩
    exact ⟨w.past.parses, rfl, clear⟩
  refine .bind (.get (Q := fun size w => w.sock = some fd ∧ w.inflow.Looking ∧
    w.inbox.length ≤ size) fun _ h => ⟨h.1, h.2, le_rfl⟩) fun size => ?_
  refine .bind (parse_inflow fd size) fun _ => .ite (fun _ => ?_) fun _ => .pure fun _ h => h
  refine .bind (Q := fun _ w => w.inflow.Good ∨ w.inflow.Broken) ?_ fun _ => .pure fun _ h => h
  intro w es a w' es' h run
  have told : Mode.told = .told ∨ Why w := .inl rfl
  have steps := (peerIsGoneLocked_does w es a w' es' told run).1
  have same := plain_inflow_eq steps
  exact ⟨.single trivial, by dsimp only; rw [same]; exact h⟩

/-- In every run the stream is well, or a length has wrapped. -/
theorem run_inflow {me : Identity} {ok : World → World → Prop}
    {p : Pool Call World (List Answer) Reply} (run : Run body ok (World.start me) p) :
    p.shared.inflow.Good ∨ p.shared.inflow.Broken := by
  refine run.steps_among (fun w => w.inflow.Good ∨ w.inflow.Broken) (fun _ => True)
    (fun c _ => steps_body c) (.inl ?_) ?_ fun _ _ => trivial
  · refine ⟨⟨rfl, rfl, ?_, rfl⟩, ?_, fun n size => framing.pos size⟩
    · simp [World.start, World.inflow]
    · simp [World.start, World.inflow, Inflow.Clear]
  · intro w w' inv taken ok
    clear ok
    cases taken with
    | plain mode steps =>
      rw [plain_inflow_eq steps]
      exact inv
    | @pumped fd es st run =>
      rcases inv with good | broken
      · exact (pumpLocked_inflow fd w es st w' [] good run).2
      · have steps : ReflTransGen (Deed .other) w w' :=
          (pumpLocked_does fd w es st w' [] trivial run).1
        right
        clear run
        induction steps with
        | refl => exact broken
        | tail _ last ih => exact last.broken ih

/-! ## The reader and the end of the inbox -/

/-- The reader reads or erases past the end of the inbox exactly if, at one of its looks for
frames, what follows the whole frames is a header whose length, with the header's own, does
not fit 32 bits. -/
theorem reader_in_bounds_iff (me : Identity) (p : Pool Call World (List Answer) Reply)
    (run : Run body (fun _ _ => True) (World.start me) p) :
    p.shared.past.faults = [] ↔
      ∀ n ∈ p.shared.past.parses, ¬Wraps (framing.rest (p.shared.past.read.take n)) := by
  rcases run_inflow run with good | broken
  · exact ⟨fun _ n hn => (good.clear n hn).2, fun _ => good.fine⟩
  · obtain ⟨n, hn, -, wraps⟩ := broken.wrapped
    exact ⟨fun fine => absurd fine broken.faults, fun none => absurd wraps (none n hn)⟩

theorem reader_in_bounds_iff_message :
    ∃ p, Run body (fun _ _ => True) (World.start Bench.me) p ∧ p.Quiet ∧
      p.shared.past.frames.length = 2 ∧ p.shared.inbox = [9, 0] ∧
      (p.shared.past.faults = [] ↔
        ∀ n ∈ p.shared.past.parses, ¬Wraps (framing.rest (p.shared.past.read.take n))) := by
  obtain ⟨p, run, quiet, taken⟩ := Run.of_enact body (fun _ _ => True) (World.start Bench.me)
    [(Bench.dialled 3, [.spawn (.connect [0, 0] 7), .run 0 2]),
      ([[], [], [.received (.data [2, 0, 0, 0, 0]),
          .received (.data [0, 4, 0, 0, 0, 0, 0, 5, 0, 9, 0]), .received .again], []],
        [.spawn (.pollControl 4), .run 1 4])]
    (fun p => p.Quiet ∧ p.shared.past.frames.length = 2 ∧ p.shared.inbox = [9, 0])
    (by decide +kernel)
  exact ⟨p, run, quiet, taken.1, taken.2, reader_in_bounds_iff Bench.me p run⟩

/-- The six bytes of a header with the greatest length are taken for a frame, and four
thousand million more are erased. -/
theorem reader_past_the_end :
    ∃ p, Run body (fun _ _ => True) (World.start Bench.me) p ∧ p.Quiet ∧
      p.shared.past.read = [255, 255, 255, 255, 5, 0] ∧
      p.shared.past.faults = [(6 + (2 ^ 32 - 1), 6)] := by
  exact Run.of_enact _ _ _
    [(Bench.dialled 3, [.spawn (.connect [0, 0] 7), .run 0 2]),
      ([[], [], [.received (.data [255, 255, 255, 255, 5, 0]), .received .again], []],
        [.spawn (.pollControl 4), .run 1 4])]
    _ (by decide +kernel)

/-! ## Frames put back together -/

theorem eq_of_map_encode {fs gs : List Frame} (hf : ∀ f ∈ fs, f.Sized) (hg : ∀ g ∈ gs, g.Sized)
    (same : fs.map Frame.encode = gs.map Frame.encode) : fs = gs := by
  induction fs generalizing gs with
  | nil => exact (List.map_eq_nil_iff.mp same.symm).symm
  | cons f fs ih =>
    cases gs with
    | nil => cases same
    | cons g gs =>
      obtain ⟨hf, hfs⟩ := List.forall_mem_cons.mp hf
      obtain ⟨hg, hgs⟩ := List.forall_mem_cons.mp hg
      obtain ⟨head, tail⟩ := List.cons.inj same
      rw [hf.injective hg head, ih hfs hgs tail]

/-- Frames whose length is at most `2 ^ 32 - 7` do not wrap, however much of one is there. -/
theorem not_wraps_of_frames {gs : List Frame} (short : ∀ g ∈ gs, g.body.length ≤ 2 ^ 32 - 7)
    (sized : ∀ g ∈ gs, g.Sized) {bs : Bytes} (arrived : bs <+: gs.flatMap Frame.encode) :
    ¬Wraps (framing.rest bs) := by
  intro wraps
  rcases (Framing.cuts_frames framing bs).rest_of_arrived (fun g hg => (sized g hg).whole)
    arrived with none | ⟨g, hg, part⟩
  · have := wraps.1
    rw [none, List.length_nil] at this
    omega
  · have four : 0 + 4 ≤ (framing.rest bs).length := Nat.le_trans (by omega) wraps.1
    have head : leAt (framing.rest bs) 0 4 = g.body.length := by
      have known : leAt g.encode 0 4 = g.body.length := Wire.leAt_head 4 _ _ (sized g hg).2
      rw [← known, List.prefix_iff_eq_take.mp part]
      exact Wire.leAt_take four
    have := wraps.2
    have := short g hg
    omega

end Hux.Ipc
