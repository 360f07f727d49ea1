import Hux.Frames

/-!
# Mappings

What becomes of the peer's regions: published, mapped on first use, copied across, and
closed. `Mappings.Step` is that on its own, and the provider's steps are such steps.

* `transfers_inside`: where every publication lies within its allocation, so does every
  copy;
* `mappings_conserved`: where no region is published again while it is mapped, every
  mapping made is held or has been closed.
-/

namespace Hux.Ipc
open Interleave (Pool Run)
open Relation (ReflTransGen)
open Multiset (card_add ofList coe_add coe_singleton count count_add coe_count card coe_card)

structure Mappings where
  imported : Table Imported
  imports : List (IpcHandle × Nat)
  closes : List Nat
  replaced : List Nat
  copies : List Copy
  frames : List Frame
  destroyed : Bool

def World.mappings (w : World) : Mappings where
  imported := w.imported
  imports := w.past.imports
  closes := w.past.closes
  replaced := w.past.replaced
  copies := w.past.copies
  frames := w.past.frames
  destroyed := w.destroyed

namespace Mappings

def Unmapped (t : Table Imported) : Prop := ∀ x ∈ t.entries, x.2.mapped = 0

/-- `import_ipc` has returned a mapping for the entry. -/
def Made (m : Mappings) (im : Imported) : Prop :=
  ∃ base, (im.handle, base) ∈ m.imports ∧ im.mapped = returned (im.handle, base)

inductive Step (m : Mappings) : Mappings → Prop
  | heard (f : Frame) : Step m { m with frames := m.frames ++ [f] }
  | published {f : Frame} {key : Nat} {im : Imported} : f ∈ m.frames → f.publish? = some (key, im) →
      Step m { m with
        imported := m.imported.insert key im
        replaced := if (m.imported.find key).any (·.mapped ≠ 0) then m.replaced ++ [key]
          else m.replaced }
  | forgot {key : Nat} {im : Imported} : m.imported.find key = some im → im.mapped = 0 →
      Step m { m with imported := m.imported.erase key }
  | closed {key : Nat} {im : Imported} {t : Table Imported} : m.imported.find key = some im →
      im.mapped ≠ 0 → t = m.imported.erase key ∨ t = m.imported.insert key { im with mapped := 0 } →
      Step m { m with imported := t, closes := m.closes ++ [im.mapped] }
  | cleared : Unmapped m.imported → Step m { m with imported := .empty }
  | destroyed : Unmapped m.imported → Step m { m with destroyed := true }
  | mapped {key : Nat} {im : Imported} {base : Nat} : m.destroyed = false →
      m.imported.find key = some im → im.mapped = 0 → base ≠ 0 →
      base + im.handle.allocationBytes < 2 ^ 64 →
      Step m { m with
        imported := m.imported.insert key { im with mapped := returned (im.handle, base) }
        imports := m.imports ++ [(im.handle, base)] }
  | copied {im : Imported} {op : SubOp} : m.imported.find op.remoteKey = some im →
      im.mapped ≠ 0 ∨ m.Made im → im.peerAddr ≤ op.remoteAddr →
      op.remoteAddr - im.peerAddr + op.length ≤ im.length →
      Step m { m with copies := m.copies ++
        [⟨im, op, u64 (im.mapped + (op.remoteAddr - im.peerAddr)),
        decide (m.closes.count im.mapped < (m.imports.map returned).count im.mapped)⟩] }

end Mappings

open Mappings (Step)

/-! ## The provider's steps -/

variable {w w' : World} {f : Frame}

theorem Sends.mappings_eq {st : Status} (sends : Sends w f st w') : w'.mappings = w.mappings := by
  cases sends <;> rfl

theorem Plain.mappings {mode : Mode} (plain : Plain mode w w') :
    w'.mappings = w.mappings ∨ Step w.mappings w'.mappings := by
  cases plain with
  | sent _ sends => exact .inl sends.mappings_eq
  | published _ sends => exact .inl sends.mappings_eq
  | deregisters h =>
    left
    cases h with
    | unknown => rfl
    | unconnected => rfl
    | unsent _ _ sends => exact sends.mappings_eq
    | waits _ _ _ sends => exact sends.mappings_eq
    | late _ _ sends => exact sends.mappings_eq
  | checks h => cases h <;> exact .inl rfl
  | closed _ _ there held => exact .inr (.closed there held (.inr rfl))
  | cleared _ none => exact .inr (.cleared none)
  | dropped =>
    left
    unfold World.dropSocket
    split <;> rfl
  | destroyed _ none => exact .inr (.destroyed none)
  | mapped here there null base room => exact .inr (.mapped here there null base room)
  | copied cs _ there held above inside => exact .inr (.copied there held above inside)
  | _ => exact .inl rfl

theorem Effect.mappings (effect : Effect (w.heard f) f w') :
    ReflTransGen Step w.mappings w'.mappings := by
  refine .head (.heard f) ?_
  cases effect with
  | control => exact .refl
  | publish asked =>
    exact .single (.published (List.mem_append_right _ (List.mem_singleton_self f)) asked)
  | withdraw _ withdrawn _ sends =>
    rw [sends.mappings_eq]
    cases withdrawn with
    | absent => exact .refl
    | unmapped there null => exact .single (.forgot there null)
    | mapped there held => exact .single (.closed there held (.inl rfl))
  | withdrawAck =>
    unfold World.acknowledge
    split <;> exact .refl
  | nothing => exact .refl

theorem Reads.mappings (reads : Reads w w') : ReflTransGen Step w.mappings w'.mappings := by
  cases reads with
  | received => exact .refl
  | ended => exact .refl
  | looked => exact .refl
  | took _ _ effect => exact effect.mappings
  | @fault f w' _ _ _ effect =>
    rcases effect with effect | rfl
    · exact effect.mappings
    · exact .single (.heard f)

theorem Section.mappings (h : Section w w') : ReflTransGen Step w.mappings w'.mappings := by
  obtain ⟨mode, steps⟩ := h.deeds
  clear h
  induction steps with
  | refl => exact .refl
  | tail _ last ih =>
    refine ih.trans ?_
    rcases last with plain | reads
    · rcases plain.mappings with same | step
      · rw [same]
      · exact .single step
    · exact reads.mappings

/-- What the steps of the mappings keep holds after every run. -/
theorem run_mappings {J : Mappings → Prop} (keep : ∀ m m', J m → Step m m' → J m') {me : Identity}
    (start : J (World.start me).mappings) {ok : World → World → Prop}
    {p : Pool Call World (List Answer) Reply} (run : Run body ok (World.start me) p) :
    J p.shared.mappings := by
  refine run.steps_among (fun w => J w.mappings) (fun _ => True) (fun c _ => steps_body c) start ?_
    fun _ _ => trivial
  intro w w' inv taken _
  have steps := taken.mappings
  generalize w'.mappings = m' at steps
  induction steps with
  | refl => exact inv
  | tail _ step ih => exact keep _ _ ih step

variable {key : Nat} {im : Imported}

theorem publish?_unmapped (asked : f.publish? = some (key, im)) : im.mapped = 0 := by
  unfold Frame.publish? at asked
  split at asked
  · cases asked
    rfl
  · cases asked

/-! ## Copies within the mapping -/

/-- Every publication taken so far lies within the allocation it names. -/
def Declared (fs : List Frame) : Prop :=
  ∀ f ∈ fs, ∀ x ∈ f.publish?, x.2.handle.offset + x.2.length ≤ x.2.handle.allocationBytes

instance (fs : List Frame) : Decidable (Declared fs) :=
  inferInstanceAs (Decidable (∀ f ∈ fs, ∀ x ∈ f.publish?,
    x.2.handle.offset + x.2.length ≤ x.2.handle.allocationBytes))

/-- A copy within the mapped allocation, which is all within the address space. -/
def Mappings.Inside (m : Mappings) (c : Copy) : Prop :=
  c.im.handle.offset + (c.op.remoteAddr - c.im.peerAddr) + c.op.length ≤
      c.im.handle.allocationBytes ∧
    ∃ base, (c.im.handle, base) ∈ m.imports ∧
      c.remote = base + (c.im.handle.offset + (c.op.remoteAddr - c.im.peerAddr)) ∧
      base + c.im.handle.allocationBytes < 2 ^ 64

namespace Mappings

structure Contained (m : Mappings) : Prop where
  fits : ∀ x ∈ m.imported.entries,
    x.2.handle.offset + x.2.length ≤ x.2.handle.allocationBytes
  made : ∀ x ∈ m.imported.entries, x.2.mapped ≠ 0 → m.Made x.2
  room : ∀ y ∈ m.imports, y.2 + y.1.allocationBytes < 2 ^ 64
  copies : ∀ c ∈ m.copies, m.Inside c

variable {m m' : Mappings}

/-- With fewer entries, or others that are not mapped. -/
theorem Contained.replace (inv : m.Contained) {t : Table Imported} (same : m'.imported = t)
    (imports : m'.imports = m.imports) (copies : m'.copies = m.copies)
    (entries : ∀ x ∈ t.entries, x ∈ m.imported.entries ∨ x.2.mapped = 0 ∧
      x.2.handle.offset + x.2.length ≤ x.2.handle.allocationBytes) : m'.Contained := by
  obtain ⟨fits, made, room, inside⟩ := inv
  refine ⟨?_, ?_, imports ▸ room, ?_⟩
  · intro x hx
    rcases entries x (same ▸ hx) with old | new
    · exact fits x old
    · exact new.2
  · intro x hx held
    rcases entries x (same ▸ hx) with old | new
    · rw [Made, imports]
      exact made x old held
    · exact absurd new.1 held
  · rw [copies]
    intro c hc
    rw [Inside, imports]
    exact inside c hc

theorem returned_eq {h : IpcHandle} {base n : Nat} (room : base + h.allocationBytes < 2 ^ 64)
    (inside : h.offset + n ≤ h.allocationBytes) :
    u64 (returned (h, base) + n) = base + (h.offset + n) := by
  have here : returned (h, base) = base + h.offset := u64_of_lt (by simp only; omega)
  rw [here, u64_of_lt (by omega), Nat.add_assoc]

theorem Contained.step (inv : Declared m.frames → m.Contained) (step : Step m m')
    (declared : Declared m'.frames) : m'.Contained := by
  cases step with
  | heard f =>
    have before := inv fun g hg => declared g (List.mem_append_left _ hg)
    exact before.replace rfl rfl rfl fun x hx => .inl hx
  | @published f key im heard asked =>
    refine (inv declared).replace rfl rfl rfl ?_
    rintro ⟨k, im'⟩ hx
    rcases Table.mem_insert.mp hx with ⟨-, rfl⟩ | ⟨-, old⟩
    · exact .inr ⟨publish?_unmapped asked, declared f heard (key, im') asked⟩
    · exact .inl old
  | forgot there null =>
    exact (inv declared).replace rfl rfl rfl fun x hx => .inl (Table.mem_erase.mp hx).1
  | @closed key im t there held what =>
    refine (inv declared).replace rfl rfl rfl ?_
    rintro ⟨k, im'⟩ hx
    rcases what with rfl | rfl
    · exact .inl (Table.mem_erase.mp hx).1
    · rcases Table.mem_insert.mp hx with ⟨-, rfl⟩ | ⟨-, old⟩
      · exact .inr ⟨rfl, (inv declared).fits (key, im) (Table.find_eq_some.mp there)⟩
      · exact .inl old
  | cleared => exact (inv declared).replace rfl rfl rfl fun x hx => absurd hx List.not_mem_nil
  | destroyed => exact (inv declared).replace rfl rfl rfl fun x hx => .inl hx
  | @mapped key im base here there null real room =>
    obtain ⟨fits, made, rooms, inside⟩ := inv declared
    have more {y : IpcHandle × Nat} (hy : y ∈ m.imports) : y ∈ m.imports ++ [(im.handle, base)] :=
      List.mem_append_left _ hy
    refine ⟨?_, ?_, ?_, ?_⟩
    · rintro ⟨k, im'⟩ hx
      rcases Table.mem_insert.mp hx with ⟨-, rfl⟩ | ⟨-, old⟩
      · exact fits (key, im) (Table.find_eq_some.mp there)
      · exact fits _ old
    · rintro ⟨k, im'⟩ hx held
      rcases Table.mem_insert.mp hx with ⟨-, rfl⟩ | ⟨-, old⟩
      · exact ⟨base, List.mem_append_right _ (List.mem_singleton_self _), rfl⟩
      · obtain ⟨b, hb, eq⟩ := made _ old held
        exact ⟨b, more hb, eq⟩
    · intro y hy
      rcases List.mem_append.mp hy with old | new
      · exact rooms y old
      · rw [List.mem_singleton.mp new]
        exact room
    · intro c hc
      obtain ⟨within, b, hb, rest⟩ := inside c hc
      exact ⟨within, b, more hb, rest⟩
  | @copied im op there held above within =>
    obtain ⟨fits, made, rooms, inside⟩ := inv declared
    refine ⟨fits, made, rooms, fun c hc => ?_⟩
    rcases List.mem_append.mp hc with old | new
    · exact inside c old
    · rw [List.mem_singleton.mp new]
      have entry := Table.find_eq_some.mp there
      have fit := fits _ entry
      dsimp only at fit
      have makes : m.Made im := held.elim (fun held => made _ entry held) id
      obtain ⟨base, hb, eq⟩ := makes
      have room := rooms _ hb
      refine ⟨?_, base, hb, ?_, room⟩
      · dsimp only
        omega
      · dsimp only
        rw [eq]
        exact returned_eq room (by omega)

end Mappings

/-- If every publication the peer sent lies within the allocation it names, every copy lies
within the allocation that is mapped for it, and no address on its way there wraps. -/
theorem transfers_inside (me : Identity) (p : Pool Call World (List Answer) Reply)
    (run : Run body (fun _ w => Declared w.past.frames) (World.start me) p) :
    ∀ c ∈ p.shared.past.copies, p.shared.mappings.Inside c := by
  have contained := run_mappings (J := fun m => Declared m.frames → m.Contained)
    (fun m m' inv step declared => Mappings.Contained.step inv step declared)
    (fun _ => ⟨by simp [World.mappings, World.start, Table.empty], by
      simp [World.mappings, World.start, Table.empty], by simp [World.mappings, World.start], by
      simp [World.mappings, World.start]⟩) run
  exact (contained (run.last (by simp [Declared, World.start]))).copies

/-- A connection over which a region is published, mapped and read from. -/
def Bench.mapped (length offset allocationBytes remoteAddr bytes : Nat) :
    List (List (List Answer) × List (Interleave.Cue Call)) :=
  [(dialled 3, [.spawn (.connect [0, 0] 7), .run 0 2]),
    ([[], [.time 0], reading [published 1 4096 length offset allocationBytes],
        [.mapped .ok 8192, .device .ok, .device .ok]],
      [.spawn (.submit (some 7) [read 1 remoteAddr bytes] 1), .run 1 6])]

theorem transfers_inside_read :
    ∃ p, Run body (fun _ w => Declared w.past.frames) (World.start Bench.me) p ∧ p.Quiet ∧
      p.shared.past.copies.length = 1 ∧
      ∀ c ∈ p.shared.past.copies, p.shared.mappings.Inside c := by
  obtain ⟨p, run, quiet, one⟩ := Run.of_enact body (fun _ w => Declared w.past.frames)
    (World.start Bench.me) (Bench.mapped 8 2 10 4098 6)
    (fun p => p.Quiet ∧ p.shared.past.copies.length = 1) (by decide +kernel)
  exact ⟨p, run, quiet, one, transfers_inside Bench.me p run⟩

/-- A peer publishes a region of a hundred bytes in an allocation of ten, and bytes fifty to
sixty of it are read. -/
theorem transfer_outside :
    ∃ p, Run body (fun _ _ => True) (World.start Bench.me) p ∧ p.Quiet ∧
      ∃ c ∈ p.shared.past.copies, c.im.handle.allocationBytes = 10 ∧
        c.im.handle.offset + (c.op.remoteAddr - c.im.peerAddr) + c.op.length = 60 := by
  exact Run.of_enact _ _ _ (Bench.mapped 100 0 10 4146 10) _ (by decide +kernel)

/-! ## Mappings made, held and closed -/

/-- The mapping an entry holds. -/
def Imported.weight (im : Imported) : Multiset Nat := if im.mapped = 0 then 0 else {im.mapped}

/-- The mappings the entries of a table hold. -/
def held (t : Table Imported) : Multiset Nat := (t.entries.map fun x => x.2.weight).sum

theorem held_insert (t : Table Imported) (key : Nat) (im : Imported) :
    held (t.insert key im) = im.weight + held (t.erase key) :=
  (Table.perm_insert.map _).sum_eq

variable {t : Table Imported}

theorem held_erase (there : t.find key = some im) : held t = im.weight + held (t.erase key) :=
  ((Table.perm_erase there).map _).sum_eq

theorem held_of_unmapped (none : Mappings.Unmapped t) : held t = 0 := by
  refine List.sum_eq_zero fun M hM => ?_
  obtain ⟨x, hx, rfl⟩ := List.mem_map.mp hM
  exact if_pos (none x hx)

theorem weight_unmapped (null : im.mapped = 0) : im.weight = 0 := if_pos null

theorem weight_mapped (held : im.mapped ≠ 0) : im.weight = {im.mapped} :=
  if_neg held

theorem card_held (t : Table Imported) :
    (held t).card = (t.entries.filter (·.2.mapped ≠ 0)).length := by
  unfold held
  induction t.entries with
  | nil => rfl
  | cons x rest ih =>
    rw [List.map_cons, List.sum_cons, card_add, ih]
    by_cases null : x.2.mapped = 0
    · simp [weight_unmapped null, null]
    · simp [weight_mapped null, null, Nat.add_comm]

/-- An entry is replaced by one that holds no mapping, and it held none itself. -/
theorem held_insert_unmapped (null : im.mapped = 0) (before : ¬(t.find key).any (·.mapped ≠ 0)) :
    held (t.insert key im) = held t := by
  rw [held_insert, weight_unmapped null, zero_add]
  cases found : t.find key with
  | none => rw [Table.erase_of_find_none found]
  | some old =>
    rw [found] at before
    have empty : old.mapped = 0 := by simpa using before
    rw [held_erase found, weight_unmapped empty, zero_add]

namespace Mappings

structure Conserved (m : Mappings) : Prop where
  balance : (ofList (m.imports.map returned)) = ofList m.closes + held m.imported
  live : ∀ c ∈ m.copies, c.live = true
  ended : m.destroyed = true → Unmapped m.imported

variable {m m' : Mappings}

theorem Conserved.step (inv : m.replaced = [] ∧ 0 ∉ m.imports.map returned → m.Conserved)
    (step : Step m m') (ok : m'.replaced = [] ∧ 0 ∉ m'.imports.map returned) : m'.Conserved := by
  cases step with
  | heard f => exact ⟨(inv ok).balance, (inv ok).live, (inv ok).ended⟩
  | @published f key im heard asked =>
    by_cases again : (m.imported.find key).any (·.mapped ≠ 0)
    · have more := ok.1
      dsimp only at more
      rw [if_pos again] at more
      exact absurd more (by simp)
    · simp only [if_neg again] at ok ⊢
      obtain ⟨balance, live, ended⟩ := inv ok
      have null := publish?_unmapped asked
      refine ⟨?_, live, fun dead => ?_⟩
      · rw [held_insert_unmapped null again]
        exact balance
      · rintro ⟨k, im'⟩ hx
        rcases Table.mem_insert.mp hx with ⟨-, rfl⟩ | ⟨-, old⟩
        · exact null
        · exact ended dead _ old
  | @forgot key im there null =>
    obtain ⟨balance, live, ended⟩ := inv ok
    refine ⟨?_, live, fun dead x hx => ended dead x (Table.mem_erase.mp hx).1⟩
    rw [held_erase there, weight_unmapped null, zero_add] at balance
    exact balance
  | @closed key im t there held what =>
    obtain ⟨balance, live, ended⟩ := inv ok
    have rest : Ipc.held m.imported = {im.mapped} + Ipc.held t := by
      rw [held_erase there, weight_mapped held]
      rcases what with rfl | rfl
      · rfl
      · rw [held_insert, weight_unmapped rfl, zero_add]
    refine ⟨?_, live, fun dead => absurd (ended dead _ (Table.find_eq_some.mp there)) held⟩
    dsimp only
    rw [balance, rest, ← coe_add, coe_singleton, add_assoc]
  | cleared none =>
    obtain ⟨balance, live, ended⟩ := inv ok
    refine ⟨?_, live, fun dead x hx => absurd hx List.not_mem_nil⟩
    rw [held_of_unmapped none] at balance
    exact balance
  | destroyed none => exact ⟨(inv ok).balance, (inv ok).live, fun _ => none⟩
  | @mapped key im base here there null real room =>
    have before : m.replaced = [] ∧ 0 ∉ m.imports.map returned := by
      refine ⟨ok.1, fun old => ok.2 ?_⟩
      rw [List.map_append]
      exact List.mem_append_left _ old
    obtain ⟨balance, live, ended⟩ := inv before
    have address : returned (im.handle, base) ≠ 0 := by
      intro zero
      refine ok.2 ?_
      rw [List.map_append]
      exact List.mem_append_right _ (by simp [zero])
    refine ⟨?_, live, fun dead => ?_⟩
    · dsimp only
      rw [held_insert, weight_mapped address, List.map_append, ← coe_add, balance,
        held_erase there, weight_unmapped null, zero_add, List.map_singleton,
        coe_singleton, add_assoc, add_comm {returned (im.handle, base)}]
    · rw [here] at dead
      cases dead
  | @copied im op there held above within =>
    obtain ⟨balance, live, ended⟩ := inv ok
    refine ⟨balance, fun c hc => ?_, ended⟩
    rcases List.mem_append.mp hc with old | new
    · exact live c old
    · rw [List.mem_singleton.mp new]
      have real : im.mapped ≠ 0 := by
        rcases held with real | ⟨base, made, eq⟩
        · exact real
        · intro zero
          exact ok.2 (List.mem_map.mpr ⟨_, made, eq.symm.trans zero⟩)
      have counts := congrArg (count im.mapped) balance
      rw [held_erase there, weight_mapped real, count_add, count_add,
        coe_count, coe_count, Multiset.count_singleton_self] at counts
      simp only [decide_eq_true_eq]
      omega

end Mappings

/-- If the peer never publishes a region again while it is mapped, and no mapping is at the
null address: every mapping made is held by an entry or has been closed, as often as it was
made; every copy went through a mapping that was open; and once the provider is gone every
mapping has been closed. -/
theorem mappings_conserved (me : Identity) (p : Pool Call World (List Answer) Reply)
    (run : Run body (fun _ w => w.past.replaced = [] ∧ 0 ∉ w.past.imports.map returned)
      (World.start me) p) :
    p.shared.past.imports.length =
        p.shared.past.closes.length + (p.shared.imported.entries.filter (·.2.mapped ≠ 0)).length ∧
      ofList (p.shared.past.imports.map returned) =
        ofList p.shared.past.closes + held p.shared.imported ∧
      (∀ c ∈ p.shared.past.copies, c.live = true) ∧
      (p.shared.destroyed = true →
        (p.shared.past.imports.map returned).Perm p.shared.past.closes) := by
  have conserved := run_mappings
    (J := fun m => m.replaced = [] ∧ 0 ∉ m.imports.map returned → m.Conserved)
    (fun m m' inv step ok => Mappings.Conserved.step inv step ok)
    (fun _ => ⟨rfl, by simp [World.mappings, World.start],
      by simp [World.mappings, World.start]⟩) run
  obtain ⟨balance, live, ended⟩ := conserved (run.last (by simp [World.start]))
  refine ⟨?_, balance, live, fun dead => Multiset.coe_eq_coe.mp ?_⟩
  · have cards := congrArg card balance
    rw [card_add, card_held, coe_card, coe_card, List.length_map] at cards
    exact cards
  · have none := held_of_unmapped (ended dead)
    rw [none, add_zero] at balance
    exact balance

theorem mappings_conserved_read :
    ∃ p, Run body (fun _ w => w.past.replaced = [] ∧ 0 ∉ w.past.imports.map returned)
        (World.start Bench.me) p ∧ p.Quiet ∧ p.shared.past.imports.length = 1 ∧
      p.shared.past.copies.length = 1 ∧ p.shared.destroyed = true ∧
      (p.shared.past.imports.map returned).Perm p.shared.past.closes := by
  obtain ⟨p, run, quiet, one, copied, dead⟩ := Run.of_enact body
    (fun _ w => w.past.replaced = [] ∧ 0 ∉ w.past.imports.map returned)
    (World.start Bench.me)
    (Bench.mapped 8 2 10 4098 6 ++ [([[.device .ok]], [.spawn .destroy, .run 2 1])])
    (fun p => p.Quiet ∧ p.shared.past.imports.length = 1 ∧ p.shared.past.copies.length = 1 ∧
      p.shared.destroyed = true) (by decide +kernel)
  exact ⟨p, run, quiet, one, copied, dead, (mappings_conserved Bench.me p run).2.2.2 dead⟩

/-- A region is published, mapped and read, then published again: the entry forgets the
mapping, and nothing ever closes it. -/
theorem mapping_forgotten :
    ∃ p, Run body (fun _ _ => True) (World.start Bench.me) p ∧ p.Quiet ∧
      p.shared.past.imports.length = 1 ∧ p.shared.past.closes = [] ∧
      p.shared.destroyed = true := by
  exact Run.of_enact _ _ _
    (Bench.mapped 8 2 10 4098 6 ++ [([[], Bench.reading [Bench.published 1 4096 8 2 10]],
      [.spawn (.pollControl 1), .run 2 4, .spawn .destroy, .run 3 1])]) _ (by decide +kernel)

end Hux.Ipc
