import Hux.Framing
import Hux.IpcSteps

/-!
# Reading frames

What a frame asks for, what taking one from the inbox does, and with that what every
section of every call does.
-/

namespace Hux.Ipc
open Wire (Bytes putLE leAt)
open Framing (Format)
open Interleave (Scripted Steps)
open Interleave.Scripted (get set loop fail Does)
open Relation (ReflTransGen)

/-! ## The format -/

/-- A length in four bytes, a type in two, and a body of that length. -/
def frameSize (bs : Bytes) : Option Nat := if 6 ≤ bs.length then some (6 + leAt bs 0 4) else none

variable {bs : Bytes} {n : Nat}

theorem frameSize_eq_some : frameSize bs = some n ↔ 6 ≤ bs.length ∧ 6 + leAt bs 0 4 = n := by
  unfold frameSize
  by_cases long : 6 ≤ bs.length
  · rw [if_pos long]
    simp [long]
  · rw [if_neg long]
    simp [long]

theorem frameSize_pos (size : frameSize bs = some n) : 0 < n := by
  obtain ⟨-, rfl⟩ := frameSize_eq_some.mp size
  omega

theorem frameSize_append (size : frameSize bs = some n) (more : Bytes) :
    frameSize (bs ++ more) = some n := by
  obtain ⟨long, rfl⟩ := frameSize_eq_some.mp size
  have head : leAt (bs ++ more) 0 4 = leAt bs 0 4 := by
    rw [leAt, leAt, List.drop_zero, List.drop_zero, List.take_append_of_le_length (by omega)]
  exact frameSize_eq_some.mpr ⟨by rw [List.length_append]; omega, by rw [head]⟩

theorem frameSize_take (size : frameSize bs = some n) (fits : n ≤ bs.length) :
    frameSize (bs.take n) = some n := by
  obtain ⟨-, rfl⟩ := frameSize_eq_some.mp size
  refine frameSize_eq_some.mpr ⟨by rw [List.length_take]; omega, ?_⟩
  rw [Wire.leAt_take (by omega)]

def framing : Format UInt8 where
  size := frameSize
  pos := frameSize_pos
  stable := frameSize_append
  within := frameSize_take

/-- The frame at the head of a string that is long enough for it. -/
theorem eq_encode (fits : 6 + leAt bs 0 4 ≤ bs.length) :
    bs = Frame.encode ⟨leAt bs 4 2, (bs.drop 6).take (leAt bs 0 4)⟩ ++
      bs.drop (6 + leAt bs 0 4) := by
  have first := Wire.drop_eq_putLE (b := bs) (i := 0) (w := 4) (by omega)
  have second := Wire.drop_eq_putLE (b := bs) (i := 4) (w := 2) (by omega)
  have long : ((bs.drop 6).take (leAt bs 0 4)).length = leAt bs 0 4 := by
    rw [List.length_take, List.length_drop]
    omega
  simp only [Frame.encode, long, List.append_assoc]
  rw [← List.drop_drop, List.take_append_drop]
  rw [List.drop_zero, second] at first
  exact first

/-- As a sender makes them. -/
def Frame.Sized (f : Frame) : Prop := f.type < 2 ^ 16 ∧ f.body.length < 2 ^ 32

variable {f : Frame}

theorem Frame.Sized.whole (sized : f.Sized) : framing.Whole f.encode := by
  have head : leAt f.encode 0 4 = f.body.length := Wire.leAt_head 4 _ _ sized.2
  change frameSize f.encode = some f.encode.length
  rw [frameSize_eq_some, head, length_encode]
  exact ⟨Nat.le_add_right 6 _, rfl⟩

theorem Frame.Sized.injective {g : Frame} (hf : f.Sized) (hg : g.Sized)
    (same : f.encode = g.encode) : f = g := by
  have lengths : f.body.length = g.body.length := by
    have := congrArg List.length same
    rw [length_encode, length_encode] at this
    omega
  obtain ⟨-, rest⟩ := List.append_inj same (by simp)
  obtain ⟨types, bodies⟩ := List.append_inj rest (by simp)
  have types := Wire.putLE_inj hf.1 hg.1 types
  cases f
  cases g
  cases types
  cases bodies
  rfl

/-! ## What a frame asks for -/

def Frame.control? (f : Frame) : Option (Nat × Bytes) :=
  if f.type = kFrameControl ∧ 2 ≤ f.body.length then some (leAt f.body 0 2, f.body.drop 2) else none

def Frame.publish? (f : Frame) : Option (Nat × Imported) :=
  if f.type = kFramePublish ∧ 42 ≤ f.body.length ∧ 42 + leAt f.body 40 2 ≤ f.body.length then
    some (leAt f.body 0 8, publicationOf f.body ((f.body.drop 42).take (leAt f.body 40 2)))
  else none

def Frame.withdraw? (f : Frame) : Option Nat :=
  if f.type = kFrameWithdraw ∧ 8 ≤ f.body.length then some (leAt f.body 0 8) else none

def Frame.withdrawAck? (f : Frame) : Option Nat :=
  if f.type = kFrameWithdrawAck ∧ 8 ≤ f.body.length then some (leAt f.body 0 8) else none

def World.heard (w : World) (f : Frame) : World :=
  w.note fun p => { p with frames := p.frames ++ [f] }

/-- What a withdrawal does to the entry. -/
inductive Withdrawn (w : World) (key : Nat) : World → Prop
  | absent : w.imported.find key = none → Withdrawn w key w
  | unmapped {im : Imported} : w.imported.find key = some im → im.mapped = 0 →
      Withdrawn w key { w with imported := w.imported.erase key }
  | mapped {im : Imported} : w.imported.find key = some im → im.mapped ≠ 0 →
      Withdrawn w key { w with
        imported := w.imported.erase key
        past := { w.past with
          closes := w.past.closes ++ [im.mapped]
          withdrawn := w.past.withdrawn ++ [im.mapped] } }

def acknowledgement (key : Nat) : Frame := ⟨kFrameWithdrawAck, putLE 8 key⟩

/-- What dispatching a frame does. -/
inductive Effect (w : World) (f : Frame) : World → Prop
  | control {type : Nat} {payload : Bytes} : f.control? = some (type, payload) →
      Effect w f (w.addControl type payload)
  | publish {key : Nat} {im : Imported} : f.publish? = some (key, im) →
      Effect w f (w.addImported key im)
  | withdraw {key : Nat} {st : Status} {w₁ w' : World} : f.withdraw? = some key →
      Withdrawn w key w₁ → w₁.sock ≠ none → Sends w₁ (acknowledgement key) st w' → Effect w f w'
  | withdrawAck {key : Nat} : f.withdrawAck? = some key → Effect w f (w.acknowledge key)
  | nothing : f.control? = none → f.publish? = none → f.withdraw? = none → f.withdrawAck? = none →
      Effect w f w

/-- At least a header, whose frame is not all there although its length, in 32 bits, is. -/
def Wrapping (inbox : Bytes) : Prop :=
  6 ≤ inbox.length ∧ 2 ^ 32 ≤ 6 + leAt inbox 0 4 ∧ inbox.length < 6 + leAt inbox 0 4

/-- The steps of reading frames. -/
inductive Reads (w : World) : World → Prop
  | received {bs : Bytes} : bs ≠ [] → Reads w { w with
      inbox := w.inbox ++ bs
      past := { w.past with read := w.past.read ++ bs } }
  | ended : Reads w (w.note fun p => { p with ended := true })
  | looked : Reads w (w.note fun p => { p with parses := p.parses ++ [p.read.length] })
  | took {f : Frame} {w' : World} {rest : Bytes} : f.Sized → w.inbox = f.encode ++ rest →
      Effect (w.heard f) f w' → Reads w { w' with inbox := rest }
  | fault {f : Frame} {w' : World} {upto size : Nat} : Wrapping w.inbox →
      Effect (w.heard f) f w' ∨ w' = w.heard f →
      Reads w (w'.note fun p => { p with faults := p.faults ++ [(upto, size)] })

/-- One turn of the loop, and whether there is another. -/
inductive Turn (w : World) : Bool → World → Prop
  | took {f : Frame} {w' : World} {rest : Bytes} : f.Sized → w.inbox = f.encode ++ rest →
      Effect (w.heard f) f w' → Turn w true { w' with inbox := rest }
  | stopped : w.inbox.length < 6 ∨ w.inbox.length < u32 (6 + leAt w.inbox 0 4) → Turn w false w
  | fault {f : Frame} {w' : World} {upto size : Nat} : Wrapping w.inbox →
      Effect (w.heard f) f w' ∨ w' = w.heard f →
      Turn w false (w'.note fun p => { p with faults := p.faults ++ [(upto, size)] })

/-! ## Dispatching -/

def World.fault (w : World) (upto : Nat) : World :=
  w.note fun p => { p with faults := p.faults ++ [(upto, w.inbox.length)] }

/-- A read within the inbox, or past its end. -/
theorem reach_does (upto : Nat) (w₀ : World) :
    Does (· = w₀) (fun _ _ => True) (reach upto) fun good w =>
      good = true ∧ upto ≤ w₀.inbox.length ∧ w = w₀ ∨
      good = false ∧ w₀.inbox.length < upto ∧ w = w₀.fault upto := by
  refine .bind (.get (Q := fun size w => size = w₀.inbox.length ∧ w = w₀) ?_) fun size => ?_
  · rintro _ rfl
    exact ⟨rfl, rfl⟩
  refine .ite (fun inside => .pure ?_) fun past => ?_
  · rintro _ ⟨rfl, rfl⟩
    exact .inl ⟨rfl, inside, rfl⟩
  · refine .bind (.set (Q := fun _ w => w₀.inbox.length < upto ∧ w = w₀.fault upto) ?_) fun _ =>
      .pure fun _ h => .inr ⟨rfl, h⟩
    rintro _ ⟨rfl, rfl⟩
    exact ⟨trivial, Nat.not_le.mp past, rfl⟩

theorem withdraw_does (key : Nat) (w₀ : World) :
    Does (· = w₀) (fun _ _ => True) (withdraw key) fun _ w => Withdrawn w₀ key w := by
  refine .bind (.get (Q := fun found w => w₀.imported.find key = found ∧ w = w₀) ?_) fun found => ?_
  · rintro _ rfl
    exact ⟨rfl, rfl⟩
  cases found with
  | none =>
    refine .pure ?_
    rintro _ ⟨absent, rfl⟩
    exact .absent absent
  | some im =>
    refine .ite (fun held => ?_) fun null => ?_
    · refine .bind (.ask (Q := fun _ w => Withdrawn w₀ key w) ?_) fun _ => .pure fun _ h => h
      rintro _ e st w' ⟨there, rfl⟩ answered
      split at answered
      · cases answered
        exact ⟨trivial, .mapped there held⟩
      · cases answered
    · refine .set ?_
      rintro _ ⟨there, rfl⟩
      exact ⟨trivial, .unmapped there (not_not.mp null)⟩

variable {w w' : World}

theorem Withdrawn.sock_eq {key : Nat} (h : Withdrawn w key w') : w'.sock = w.sock := by
  cases h <;> rfl

theorem Effect.sock_eq (h : Effect w f w') : w'.sock = w.sock := by
  cases h with
  | control => rfl
  | publish => rfl
  | withdraw _ withdrawn _ sends => exact sends.sock_eq.trans withdrawn.sock_eq
  | withdrawAck =>
    unfold World.acknowledge
    split <;> rfl
  | nothing => rfl

/-- A frame is dispatched, or the inbox is read past its end but not past the frame's. -/
def Dispatched (w₀ : World) (f : Frame) (len : Nat) (good : Bool) (w : World) : Prop :=
  good = true ∧ Effect w₀ f w ∨
    good = false ∧ ∃ upto, w₀.inbox.length < upto ∧ upto ≤ 6 + len ∧ w = w₀.fault upto

/-- After a read, whatever it was for. -/
theorem reached {w₀ : World} {len upto : Nat} {next : Region Bool} (within : upto ≤ 6 + len)
    (go : upto ≤ w₀.inbox.length → Does (· = w₀) (fun _ _ => True) next (Dispatched w₀ f len)) :
    Does (· = w₀) (fun _ _ => True)
      (do if !(← reach upto) then pure false else next) (Dispatched w₀ f len) := by
  refine .bind (reach_does upto w₀) fun good => .ite (fun bad => .pure ?_) fun fine => ?_
  · rintro w (⟨rfl, -⟩ | ⟨-, past, rfl⟩)
    · cases bad
    · exact .inr ⟨rfl, upto, past, within, rfl⟩
  · by_cases inside : upto ≤ w₀.inbox.length
    · refine (go inside).weaken ?_ fun _ _ h => h
      rintro w (⟨-, -, rfl⟩ | ⟨rfl, -⟩)
      · rfl
      · exact absurd rfl fine
    · rintro w es a w' es' (⟨-, here, -⟩ | ⟨rfl, -⟩)
      · exact absurd here inside
      · exact absurd rfl fine

section
variable {w₀ : World} {fd type len : Nat} {body : Bytes}

/-- An effect that is a single change of the state. -/
theorem effect_does {f : Frame} {g : World → World} (effect : Effect w₀ f (g w₀)) :
    Does (· = w₀) (fun _ _ => True) (do set g; pure true : Region Bool)
      (Dispatched w₀ f len) := by
  refine .bind (.set (Q := fun _ w => w = g w₀) ?_) fun _ => .pure ?_
  · rintro _ rfl
    exact ⟨trivial, rfl⟩
  · rintro _ rfl
    exact .inl ⟨rfl, effect⟩

theorem dispatch_does (connected : w₀.sock = some fd) (header : 6 ≤ w₀.inbox.length)
    (rest : w₀.inbox.drop 6 = body) :
    Does (· = w₀) (fun _ _ => True) (dispatch fd type len body)
      (Dispatched w₀ ⟨type, body.take len⟩ len) := by
  have size : w₀.inbox.length = 6 + body.length := by
    rw [← rest, List.length_drop]
    omega
  have short : (body.take len).length = min len body.length := List.length_take
  unfold dispatch
  refine .ite (fun is => ?_) fun notControl => .ite (fun is => ?_) fun notPublish =>
    .ite (fun is => ?_) fun notWithdraw => .ite (fun is => ?_) fun notAck => .pure ?_
  · refine reached (by omega) fun two => reached (by omega) fun all => effect_does (.control ?_)
    simp only [Frame.control?]
    rw [if_pos ⟨is.1, by omega⟩, Wire.leAt_take (by omega)]
  · refine reached (by omega) fun fixed => ?_
    have hn : leAt (body.take len) 40 2 = leAt body 40 2 := Wire.leAt_take (by omega)
    refine .ite (fun fits => ?_) fun unfit => .pure ?_
    · refine reached (by omega) fun all => effect_does (.publish ?_)
      simp only [Frame.publish?, hn]
      rw [if_pos ⟨is.1, by omega, by omega⟩, Wire.leAt_take (by omega), publicationOf,
        publicationOf]
      simp only [Wire.leAt_take (b := body) (i := 8) (w := 8) (n := len) (by omega),
        Wire.leAt_take (b := body) (i := 16) (w := 8) (n := len) (by omega),
        Wire.leAt_take (b := body) (i := 24) (w := 8) (n := len) (by omega),
        Wire.leAt_take (b := body) (i := 32) (w := 8) (n := len) (by omega)]
      rw [List.drop_take, List.take_take, Nat.min_eq_left (by omega)]
    · rintro _ rfl
      refine .inl ⟨rfl, .nothing (if_neg ?_) (if_neg ?_) (if_neg ?_) (if_neg ?_)⟩
      · exact fun h => absurd (is.1.symm.trans h.1) (by decide)
      · rintro ⟨-, -, fits⟩
        simp only [hn, short] at fits
        omega
      · exact fun h => absurd (is.1.symm.trans h.1) (by decide)
      · exact fun h => absurd (is.1.symm.trans h.1) (by decide)
  · refine reached (by omega) fun key => ?_
    have asked : Frame.withdraw? ⟨type, body.take len⟩ = some (leAt body 0 8) := by
      simp only [Frame.withdraw?]
      rw [if_pos ⟨is.1, by omega⟩, Wire.leAt_take (by omega)]
    refine .bind (withdraw_does (leAt body 0 8) w₀) fun _ => ?_
    refine .bind (Q := fun _ w => Effect w₀ ⟨type, body.take len⟩ w) ?_ fun _ =>
      .pure fun _ h => .inl ⟨rfl, h⟩
    refine .of_spec (T := fun w₁ st w => w₁.sock = some fd →
      Sends w₁ (acknowledgement (leAt body 0 8)) st w) (fun w₁ => ?_) ?_
    · by_cases same : w₁.sock = some fd
      · have spec := sendFrame_does kFrameWithdrawAck (putLE 8 (leAt body 0 8)) w₁
        rw [same] at spec
        exact spec.weaken (fun _ h => h) fun _ _ sends _ => sends
      · exact fun w es st w' es' h run => ⟨.single trivial, fun h => absurd h same⟩
    · intro w₁ st w withdrawn sends
      have same : w₁.sock = some fd := withdrawn.sock_eq.trans connected
      exact ⟨trivial, .withdraw asked withdrawn (by rw [same]; simp) (sends same)⟩
  · refine reached (by omega) fun key => effect_does (.withdrawAck ?_)
    simp only [Frame.withdrawAck?]
    rw [if_pos ⟨is.1, by omega⟩, Wire.leAt_take (by omega)]
  · rintro _ rfl
    have none {n t : Nat} (isnt : ¬(type = t ∧ n ≤ len)) :
        ¬(type = t ∧ n ≤ (body.take len).length) := by
      rintro ⟨is, long⟩
      exact isnt ⟨is, by omega⟩
    refine .inl ⟨rfl, .nothing (if_neg (none notControl)) (if_neg ?_) (if_neg (none notWithdraw))
      (if_neg (none notAck))⟩
    exact fun h => none notPublish ⟨h.1, h.2.1⟩

end

theorem Effect.inbox_eq (h : Effect w f w') : w'.inbox = w.inbox := by
  cases h with
  | control => rfl
  | publish => rfl
  | withdraw _ withdrawn _ sends => cases withdrawn <;> cases sends <;> rfl
  | withdrawAck =>
    unfold World.acknowledge
    split <;> rfl
  | nothing => rfl

/-- A frame that is not all there although its length in 32 bits is. -/
theorem wrapping {inbox : Bytes} (header : 6 ≤ inbox.length)
    (passed : ¬inbox.length < u32 (6 + leAt inbox 0 4))
    (short : inbox.length < 6 + leAt inbox 0 4) :
    Wrapping inbox := by
  refine ⟨header, ?_, short⟩
  by_contra small
  rw [u32_of_lt (Nat.not_le.mp small)] at passed
  exact passed short

theorem takeFrame_does {w₀ : World} {fd : Nat} (connected : w₀.sock = some fd) :
    Does (· = w₀) (fun _ _ => True) (takeFrame fd) (Turn w₀) := by
  refine .bind (.get (Q := fun inbox w => inbox = w₀.inbox ∧ w = w₀) ?_) fun inbox => ?_
  · rintro _ rfl
    exact ⟨rfl, rfl⟩
  refine .ite (fun few => .pure ?_) fun header => .ite (fun part => .pure ?_) fun passed => ?_
  · rintro _ ⟨rfl, rfl⟩
    exact .stopped (.inl few)
  · rintro _ ⟨rfl, rfl⟩
    exact .stopped (.inr part)
  by_cases same : inbox = w₀.inbox
  swap
  · exact fun w es a w' es' h => absurd h.1 same
  subst same
  have header := Nat.not_lt.mp header
  generalize hlen : leAt w₀.inbox 0 4 = len at *
  generalize hf : (⟨leAt w₀.inbox 4 2, (w₀.inbox.drop 6).take len⟩ : Frame) = f
  refine .bind (.set (Q := fun _ w => w = w₀.heard f) ?_) fun _ => ?_
  · rintro _ ⟨-, rfl⟩
    exact ⟨trivial, by rw [← hf]; rfl⟩
  have dispatched : Does (· = w₀.heard f) (fun _ _ => True)
      (dispatch fd (leAt w₀.inbox 4 2) len (w₀.inbox.drop 6))
      (Dispatched (w₀.heard f) ⟨leAt w₀.inbox 4 2, (w₀.inbox.drop 6).take len⟩ len) :=
    dispatch_does connected header rfl
  rw [hf] at dispatched
  refine .bind dispatched fun good => .ite (fun bad => .pure ?_) fun fine => ?_
  · rintro w (⟨rfl, -⟩ | ⟨-, upto, past, near, rfl⟩)
    · cases bad
    · refine .fault (wrapping header (hlen ▸ passed) ?_) (.inr rfl)
      rw [hlen]
      exact past.trans_le near
  refine .of_spec (T := fun w₁ r w => Effect (w₀.heard f) f w₁ → Turn w₀ r w) (fun w₁ => ?_) ?_
  · refine .bind (reach_does (6 + len) w₁) fun good => .ite (fun bad => .pure ?_) fun fine => ?_
    · rintro w (⟨rfl, -⟩ | ⟨-, past, rfl⟩) effect
      · cases bad
      · rw [effect.inbox_eq] at past
        exact .fault (wrapping header (hlen ▸ passed) (by rw [hlen]; exact past)) (.inl effect)
    · refine .bind (.set (Q := fun _ w => Effect (w₀.heard f) f w₁ → Turn w₀ true w) ?_) fun _ =>
        .pure fun _ h => h
      rintro w (⟨-, inside, rfl⟩ | ⟨rfl, -⟩)
      · refine ⟨trivial, fun effect => ?_⟩
        rw [effect.inbox_eq] at inside
        have whole := eq_encode (by rw [hlen]; exact inside)
        rw [hlen, hf] at whole
        refine .took ⟨?_, ?_⟩ ?_ effect
        · rw [← hf]
          exact Wire.leAt_lt _ _ 2
        · have long := Wire.leAt_lt w₀.inbox 0 4
          rw [hlen] at long
          rw [← hf]
          simp only [List.length_take, List.length_drop]
          omega
        · rw [effect.inbox_eq]
          exact whole
      · exact absurd rfl fine
  · rintro w₁ r w (⟨-, effect⟩ | ⟨rfl, -⟩) turn
    · exact ⟨trivial, turn effect⟩
    · exact absurd rfl fine

/-! ## Pumping -/

/-- Any step. -/
def Deed (mode : Mode) (w w' : World) : Prop := Plain mode w w' ∨ Reads w w'

variable {mode : Mode}

theorem recvStep_reads {u : Unit} {e : Answer} {x : Unit ⊕ Bool}
    (h : recvStep u w e = some (x, w')) : (w' = w ∨ Reads w w') ∧ w'.sock = w.sock := by
  unfold recvStep at h
  split at h
  · split at h
    · cases h
    · rename_i some
      cases h
      exact ⟨.inr (.received (not_or.mp some).1), rfl⟩
  · cases h
    exact ⟨.inr .ended, rfl⟩
  · cases h
    exact ⟨.inl rfl, rfl⟩
  · cases h
    exact ⟨.inl rfl, rfl⟩
  · cases h
    exact ⟨.inr .ended, rfl⟩
  · cases h

variable {more : Bool}

theorem Turn.reads (turn : Turn w more w') : w' = w ∨ Reads w w' := by
  cases turn with
  | took sized inbox effect => exact .inr (.took sized inbox effect)
  | stopped => exact .inl rfl
  | fault wraps effect => exact .inr (.fault wraps effect)

theorem Turn.sock_eq (turn : Turn w more w') : w'.sock = w.sock := by
  cases turn with
  | took _ _ effect => exact effect.sock_eq
  | stopped => rfl
  | fault _ effect =>
    rcases effect with effect | rfl
    · exact effect.sock_eq
    · rfl

theorem Sends.ended_of {st : Status} (sends : Sends w f st w') (ended : w.past.ended = true) :
    w'.past.ended = true := by
  cases sends with
  | unconnected => exact ended
  | posted => simp [World.withOutbox, ended]

theorem Effect.ended_of (effect : Effect w f w') (ended : w.past.ended = true) :
    w'.past.ended = true := by
  cases effect with
  | control => exact ended
  | publish => exact ended
  | withdraw _ withdrawn _ sends =>
    refine sends.ended_of ?_
    cases withdrawn <;> exact ended
  | withdrawAck =>
    unfold World.acknowledge
    split <;> exact ended
  | nothing => exact ended

theorem Turn.ended_of (turn : Turn w more w') (ended : w.past.ended = true) :
    w'.past.ended = true := by
  cases turn with
  | took _ _ effect => exact effect.ended_of ended
  | stopped => exact ended
  | fault _ effect =>
    rcases effect with effect | rfl
    · exact effect.ended_of ended
    · exact ended

theorem parse_does (fd fuel : Nat) (closed : Bool) :
    Does (fun w => w.sock = some fd ∧ (closed = true → w.past.ended = true)) (Deed mode)
      (parse fd fuel) fun _ w => closed = true → w.past.ended = true := by
  induction fuel with
  | zero => exact .pure fun _ h => h.2
  | succ fuel ih =>
    refine .bind (Q := fun _ w => w.sock = some fd ∧ (closed = true → w.past.ended = true))
      (.once fun w₀ h => ?_) fun more => .ite (fun _ => ih) fun _ => .pure fun _ h => h.2
    obtain ⟨connected, ended⟩ := h
    refine (takeFrame_does connected).weaken (fun _ h => h) fun _ w turn => ?_
    refine ⟨?_, turn.sock_eq.trans connected, fun is => turn.ended_of (ended is)⟩
    rcases turn.reads with rfl | reads
    · exact .inl .still
    · exact .inr reads

theorem recv_does (fd : Nat) :
    Does (fun w => w.sock = some fd) (Deed mode) (loop recvStep ())
      fun closed w => w.sock = some fd ∧ (closed = true → w.past.ended = true) := by
  have moves {u : Unit} {w w' : World} {e : Answer} {x : Unit ⊕ Bool}
      (h : recvStep u w e = some (x, w')) : Deed mode w w' := by
    rcases (recvStep_reads h).1 with rfl | reads
    · exact .inl .still
    · exact .inr reads
  refine .loop (I := fun _ (w : World) => w.sock = some fd) ?_ ?_ ()
  · intro u w e _ w' connected h
    exact ⟨moves h, (recvStep_reads h).2.trans connected⟩
  · intro u w e closed w' connected h
    refine ⟨moves h, (recvStep_reads h).2.trans connected, ?_⟩
    unfold recvStep at h
    split at h
    · split at h <;> cases h
    · cases h
      exact fun _ => rfl
    · cases h
    · cases h
      rintro ⟨⟩
    · cases h
      exact fun _ => rfl
    · cases h

theorem pumpLocked_does (fd : Nat) :
    Does (fun _ => True) (Deed mode) (pumpLocked fd) fun _ _ => True := by
  refine .bind (.get (Q := fun sock w => sock = w.sock) fun _ _ => rfl) fun sock =>
    .ite (fun _ => .pure fun _ _ => trivial) fun connected => ?_
  have connected := not_not.mp connected
  refine .bind ((recv_does fd).weaken (fun w same => same.symm.trans connected.symm)
    fun _ _ h => h) fun closed => ?_
  refine .bind (.set (Q := fun _ w => w.sock = some fd ∧ (closed = true → w.past.ended = true)) ?_)
    fun _ => ?_
  · exact fun w h => ⟨.inr .looked, h⟩
  refine .bind (.get (Q := fun _ w => w.sock = some fd ∧ (closed = true → w.past.ended = true))
    fun _ h => h) fun size => ?_
  refine .bind (parse_does fd size closed) fun _ => .ite (fun is => ?_) fun _ =>
    .pure fun _ _ => trivial
  refine .bind ((peerIsGoneLocked_does.mono fun _ _ => .inl).weaken
    (fun w h => .inr (.ended (h is))) fun _ _ h => h) fun _ => .pure fun _ _ => trivial

/-! ## Calls -/

/-- What a section does: a pump, or none of the steps that read frames. -/
inductive Section (w w' : World) : Prop
  | plain (mode : Mode) : ReflTransGen (Plain mode) w w' → Section w w'
  | pumped {fd : Nat} {es : List Answer} {st : Status} : pumpLocked fd w es = some (st, w', []) →
      Section w w'

/-- In either case it is made of steps. -/
theorem Section.deeds (h : Section w w') : ∃ mode, ReflTransGen (Deed mode) w w' := by
  cases h with
  | plain mode steps => exact ⟨mode, ReflTransGen.mono (fun _ _ => .inl) _ _ steps⟩
  | @pumped fd es st run => exact ⟨.other, (pumpLocked_does fd w es st w' [] trivial run).1⟩

variable {α : Type} {m : Region α}

/-- A section of a method, with the lock held. -/
theorem region_does {P : World → Prop} {R : World → World → Prop} {Q : α → World → Prop}
    (does : Does (fun w => w.destroyed = false ∧ P w) R m Q) : Does P R (do
      let dead ← get (·.destroyed)
      if dead then fail else m) Q := by
  refine .bind (.get (Q := fun dead w => w.destroyed = dead ∧ P w) fun _ h => ⟨rfl, h⟩) fun dead =>
    .ite (fun _ => .fail) fun here => ?_
  exact does.weaken (fun w h => ⟨h.1.trans (by simpa using here), h.2⟩) fun _ _ h => h

theorem steps_locked (mode : Mode)
    (does : Does (fun w => w.destroyed = false) (Plain mode) m fun _ _ => True) :
    Steps Section (region m) :=
  (region_does (does.weaken (fun _ h => h.1) fun _ _ h => h)).region fun _ _ h => .plain mode h

theorem steps_region (mode : Mode) (does : Does (fun _ => True) (Plain mode) m fun _ _ => True) :
    Steps Section (region m) :=
  steps_locked mode (does.weaken (fun _ _ => trivial) fun _ _ h => h)

theorem steps_get (f : World → α) : Steps Section (region (get f)) :=
  steps_region .other (.get fun _ _ => trivial)

theorem steps_now : Steps Section (region now) :=
  steps_region .other (now_does fun _ => .still)

theorem steps_halt : Steps Section (halt : Provider α) :=
  ⟨fun _ _ _ _ _ h => absurd h (by simp), fun _ => trivial⟩

theorem flush_does :
    Does (fun _ => True) (Plain mode) (onOutbox (flushLocked Answer.sent?)) fun _ _ => True := by
  refine .of_spec (onOutbox_does ControlOutbox.flushLocked_does) fun w st w' _ h => ?_
  obtain ⟨o, flushed, rfl⟩ := h
  exact ⟨.flushed flushed, trivial⟩

theorem steps_pump (fd : Option Nat) : Steps Section (pump fd) := by
  cases fd with
  | none => exact trivial
  | some fd =>
    refine (steps_region .other flush_does).bind fun s => Steps.ite ?_ ?_
    · refine (steps_region .told ?_).bind fun _ => trivial
      exact peerIsGoneLocked_does.weaken (fun _ _ => .inl rfl) fun _ _ h => h
    · refine ⟨fun _ w es st w' h => ?_, fun _ => trivial⟩
      have run := Interleave.region_step h
      obtain ⟨dead, w₁, es₁, looked, rest⟩ := Scripted.bind_eq_some.mp run
      cases looked
      split at rest
      · cases rest
      · exact .pumped rest

theorem steps_acceptLoop (timeoutMs deadline : Int) (id : ConnId) (n : Nat) :
    Steps Section (acceptLoop timeoutMs deadline id n) := by
  induction n with
  | zero => exact steps_halt
  | succ n ih =>
    refine (steps_region .other select_does).bind fun ready => Steps.ite ?_ (Steps.ite ?_ ih)
    · refine (steps_region .other newSocket_does).bind fun fd => ?_
      cases fd with
      | none => exact ih
      | some fd => exact steps_region .other (establish_does fd id)
    · exact steps_now.bind fun t => Steps.ite trivial ih

theorem steps_awaitAck (key deadline n : Nat) (fd : Option Nat) :
    Steps Section (awaitAck key deadline n fd) := by
  induction n generalizing fd with
  | zero => exact steps_halt
  | succ n ih =>
    refine (steps_pump fd).bind fun _ => (steps_region .other ?_).bind fun r => ?_
    · exact .of_spec (checkAck_does key deadline) fun w r w' _ h =>
        ⟨.checks h, trivial⟩
    · cases r with
      | inl s => exact trivial
      | inr fd => exact ih fd

theorem steps_awaitKeys (ops : List SubOp) (fd : Option Nat) (deadline n : Nat) :
    Steps Section (awaitKeys ops fd deadline n) := by
  induction n with
  | zero => exact steps_halt
  | succ n ih =>
    refine (steps_pump fd).bind fun _ => (steps_get _).bind fun done => Steps.ite trivial ?_
    exact steps_now.bind fun t => Steps.ite trivial ih

/-- All that any call ever does. -/
theorem steps_body (c : Call) : Steps Section (body c) := by
  cases c with
  | registerRegion addr length =>
    refine Steps.bind (Steps.ite trivial ?_) fun _ => trivial
    refine (steps_region .other exportIpc_does).bind fun named => Steps.ite trivial ?_
    exact steps_region .other (registerLocked_does _)
  | deregisterRegion key rounds =>
    refine Steps.bind ?_ fun _ => trivial
    refine (steps_region .other ?_).bind fun r => ?_
    · exact .of_spec (withdrawFrom_does key) fun w r w' _ h =>
        ⟨.deregisters h, trivial⟩
    · cases r with
      | inl s => exact trivial
      | inr x => exact steps_awaitAck key x.1 rounds x.2
  | connect blob id =>
    refine Steps.bind (Steps.ite trivial (Steps.ite trivial ?_)) fun _ => trivial
    refine (steps_region .other newSocket_does).bind fun fd => ?_
    cases fd with
    | none => exact trivial
    | some fd => exact steps_region .other (establish_does fd id)
  | accept timeoutMs id rounds =>
    refine Steps.bind (steps_now.bind fun t => ?_) fun _ => trivial
    exact steps_acceptLoop timeoutMs _ id rounds
  | disconnect => exact (steps_region .leaving disconnectLocked_does).bind fun _ => trivial
  | submit conn ops rounds =>
    refine Steps.bind (Steps.ite trivial ?_) fun _ => trivial
    refine (steps_get _).bind fun fd => steps_now.bind fun t => ?_
    refine (steps_awaitKeys ops fd _ rounds).bind fun _ => ?_
    exact steps_locked .other (submitLocked_does ops)
  | poll n => exact (steps_region .other (pollLocked_does n)).bind fun _ => trivial
  | sendControl conn type payload =>
    refine Steps.bind ?_ fun _ => trivial
    cases conn with
    | none => exact trivial
    | some id => exact steps_region .other (sendControlLocked_does id type payload)
  | broadcastControl type payload =>
    exact (steps_region .other (broadcastLocked_does type payload)).bind fun _ => trivial
  | pollControl n =>
    refine Steps.bind ((steps_get _).bind fun fd => (steps_pump fd).bind fun _ => ?_)
      fun _ => trivial
    exact steps_region .other (takeControl_does n)
  | peerAlive => exact (steps_get _).bind fun _ => trivial
  | destroy => exact (steps_region .leaving destroyAll_does).bind fun _ => trivial

end Hux.Ipc
