import Hux.Local

/-!
# Engine metadata on the wire

What `local_metadata` writes and what `add_peer` reads: an identity, a magic
number and a version, and the offers of the transports, each with its name and
what dials it.

* `readMetadata_encodeEnvelope`: what was written is read back, whatever the
  minor;
* `encodeEnvelope_of_readMetadata`: what is accepted was written so;
* `readMetadataWithin`: the same reader, with every read it makes of the bytes.
-/

namespace Hux
open Wire

/-! ## The layout -/

def encodeOffer (o : Offer) : Bytes :=
  putLE 2 o.name.length ++ (o.name ++ (putLE 2 o.blob.length ++ o.blob))

def encodeOffers (os : List Offer) : Bytes := os.flatMap encodeOffer

/-- What stands before the offers. -/
def encodeHead (minor : Nat) (id : Identity) (count : Nat) : Bytes :=
  encodeIdentity id ++ (putLE 2 (kMetadataMagic % 0x10000) ++ (putLE 2 (kMetadataMagic / 0x10000) ++
    (putLE 2 kMetadataMajor ++ (putLE 2 minor ++ putLE 2 count))))

def encodeEnvelope (minor : Nat) (id : Identity) (os : List Offer) : Bytes :=
  encodeHead minor id os.length ++ encodeOffers os

/-- `local_metadata`, from what each transport says dials it, if it can be
dialled. -/
def localMetadata {W : Type} (setup : Setup W) (metadata : ProviderId → Option Bytes) :
    Except Status Bytes :=
  let metas := (List.range setup.providers).filterMap fun p =>
    (metadata p).map fun m => (⟨(setup.caps p).name, m⟩ : Offer)
  if metas.isEmpty then .error .internal
  else .ok (encodeEnvelope kMetadataMinor setup.identity metas)

def Offer.Fits (o : Offer) : Prop := o.name.length < 2 ^ 16 ∧ o.blob.length < 2 ^ 16

theorem length_encodeHead (minor : Nat) (id : Identity) (count : Nat) :
    (encodeHead minor id count).length = kIdentityBytes + 10 := by
  simp [encodeHead, encodeIdentity, kIdentityBytes]

/-! ## Reading back what was written -/

/-- The offers, wherever they stand and whatever follows them. -/
theorem readOffers_encodeOffers (os : List Offer) (fits : ∀ o ∈ os, o.Fits) (a c : Bytes) :
    readOffers (a ++ (encodeOffers os ++ c)) os.length a.length =
      some (os, a.length + (encodeOffers os).length) := by
  induction os generalizing a with
  | nil => simp [readOffers, encodeOffers]
  | cons o os ih =>
    obtain ⟨⟨name, blob⟩, fits⟩ := List.forall_mem_cons.mp fits
    generalize whole : a ++ (encodeOffers (o :: os) ++ c) = b
    have form : b = a ++ (putLE 2 o.name.length ++
        (o.name ++ (putLE 2 o.blob.length ++ (o.blob ++ (encodeOffers os ++ c))))) := by
      simp [← whole, encodeOffers, encodeOffer]
    have length := congrArg List.length form
    simp only [List.length_append, length_putLE] at length
    have hname : leAt b a.length 2 = o.name.length := leAt_mid form rfl name
    have hblob : leAt b (a.length + 2 + o.name.length) 2 = o.blob.length :=
      leAt_mid (a := a ++ putLE 2 o.name.length ++ o.name)
        (c := o.blob ++ (encodeOffers os ++ c)) (by simp [form]) (by simp [Nat.add_assoc]) blob
    have takeName : (b.drop (a.length + 2)).take o.name.length = o.name :=
      slice_mid (a := a ++ putLE 2 o.name.length)
        (c := putLE 2 o.blob.length ++ (o.blob ++ (encodeOffers os ++ c))) (by simp [form])
        (by simp)
    have takeBlob : (b.drop (a.length + 2 + o.name.length + 2)).take o.blob.length = o.blob :=
      slice_mid (a := a ++ putLE 2 o.name.length ++ o.name ++ putLE 2 o.blob.length)
        (c := encodeOffers os ++ c) (by simp [form]) (by simp [Nat.add_assoc])
    have rest := ih fits (a ++ encodeOffer o)
    have place : (a ++ encodeOffer o).length =
        a.length + 2 + o.name.length + 2 + o.blob.length := by
      simp [encodeOffer]
      omega
    have same : a ++ encodeOffer o ++ (encodeOffers os ++ c) = b := by
      simp [form, encodeOffer]
    rw [place, same] at rest
    have total : (encodeOffers (o :: os)).length =
        2 + o.name.length + 2 + o.blob.length + (encodeOffers os).length := by
      simp [encodeOffers, encodeOffer]
      omega
    rw [List.length_cons, readOffers, if_neg (by omega), hname, if_neg (by omega), hblob,
      if_neg (by omega), rest, takeName, takeBlob, total]
    simp only [Option.map_some]
    congr 2
    omega

theorem envelope_encodeEnvelope (minor : Nat) (id : Identity) (os : List Offer) (extra : Bytes) :
    kIdentityBytes + 10 ≤ (encodeEnvelope minor id os ++ extra).length ∧
      leAt (encodeEnvelope minor id os ++ extra) kIdentityBytes 4 = kMetadataMagic ∧
      leAt (encodeEnvelope minor id os ++ extra) (kIdentityBytes + 4) 2 = kMetadataMajor := by
  generalize whole : encodeEnvelope minor id os ++ extra = b
  have form : b = encodeIdentity id ++ (putLE 2 (kMetadataMagic % 0x10000) ++
      (putLE 2 (kMetadataMagic / 0x10000) ++ (putLE 2 kMetadataMajor ++ (putLE 2 minor ++
        (putLE 2 os.length ++ (encodeOffers os ++ extra)))))) := by
    simp [← whole, encodeEnvelope, encodeHead]
  have long : kIdentityBytes + 10 ≤ b.length := by
    rw [← whole, encodeEnvelope, List.length_append, List.length_append, length_encodeHead]
    omega
  have low : leAt b kIdentityBytes 2 = kMetadataMagic % 0x10000 := by
    rw [form]
    simp [leAt_skip, encodeIdentity, kIdentityBytes,
      leAt_head 2 (kMetadataMagic % 0x10000) _ (by decide)]
  have high : leAt b (kIdentityBytes + 2) 2 = kMetadataMagic / 0x10000 := by
    rw [form]
    simp [leAt_skip, encodeIdentity, kIdentityBytes,
      leAt_head 2 (kMetadataMagic / 0x10000) _ (by decide)]
  refine ⟨long, ?_, ?_⟩
  · have halves := leAt_add (b := b) (i := kIdentityBytes) (v := 2) (by omega) 2
    rw [low, high] at halves
    exact halves
  · rw [form]
    simp [leAt_skip, encodeIdentity, kIdentityBytes, leAt_head 2 kMetadataMajor _ (by decide)]

/-- What `local_metadata` writes, with any minor and any bytes after it. -/
theorem readMetadata_encodeEnvelope (mine : Identity) (minor : Nat) {id : Identity}
    (fits : id.Fits) {os : List Offer} (count : os.length < 2 ^ 16) (offers : ∀ o ∈ os, o.Fits)
    (extra : Bytes) :
    readMetadata mine (encodeEnvelope minor id os ++ extra) =
      if extra = [] then
        .ok ⟨id, localityOf mine id, os, (encodeEnvelope minor id os).drop kIdentityBytes⟩
      else .error .invalidArgument := by
  obtain ⟨long, magic, major⟩ := envelope_encodeEnvelope minor id os extra
  have read := readOffers_encodeOffers os offers (encodeHead minor id os.length) extra
  rw [← List.append_assoc, ← encodeEnvelope, length_encodeHead] at read
  generalize whole : encodeEnvelope minor id os ++ extra = b at long magic major read
  have length : b.length = kIdentityBytes + 10 + (encodeOffers os).length + extra.length := by
    rw [← whole, encodeEnvelope, List.length_append, List.length_append, length_encodeHead]
  have form : b = encodeIdentity id ++ (putLE 2 (kMetadataMagic % 0x10000) ++
      (putLE 2 (kMetadataMagic / 0x10000) ++ (putLE 2 kMetadataMajor ++ (putLE 2 minor ++
        (putLE 2 os.length ++ (encodeOffers os ++ extra)))))) := by
    simp [← whole, encodeEnvelope, encodeHead]
  have counted : leAt b (kIdentityBytes + 8) 2 = os.length := by
    rw [form]
    simp [leAt_skip, encodeIdentity, kIdentityBytes, leAt_head 2 os.length _ count]
  have ident : decodeIdentity b 0 = .ok id := by
    rw [decodeIdentity, if_neg (by omega), form]
    simp [leAt_skip, encodeIdentity, leAt_head 8 _ _ fits.1, leAt_head 8 _ _ fits.2.1,
      leAt_head 8 _ _ fits.2.2]
  have envelope : (decide (kIdentityBytes + 8 ≤ b.length) &&
      leAt b kIdentityBytes 4 == kMetadataMagic) = true := by
    rw [magic, beq_self_eq_true, Bool.and_true]
    exact decide_eq_true (by omega)
  rw [readMetadata, envelope, if_pos rfl, if_neg (not_not.mpr major), ident]
  dsimp only
  rw [if_neg (by omega), counted, read]
  dsimp only
  by_cases none : extra = []
  · subst none
    rw [List.append_nil] at whole
    rw [if_neg (by simpa using length.symm), if_pos rfl, whole]
  · have some : 0 < extra.length := List.length_pos_iff.mpr none
    rw [if_pos (by omega), if_neg none]

/-! ## What is accepted -/

/-- What is read is within the widths of the layout. -/
def Metadata.Fits (m : Metadata) : Prop :=
  m.identity.Fits ∧ m.offered.length < 2 ^ 16 ∧ ∀ o ∈ m.offered, o.Fits

variable {b : Bytes}

theorem readOffers_inv {count i stop : Nat} {os : List Offer} (inside : i ≤ b.length)
    (read : readOffers b count i = some (os, stop)) :
    b.drop i = encodeOffers os ++ b.drop stop ∧ stop ≤ b.length ∧ os.length = count ∧
      ∀ o ∈ os, o.Fits := by
  induction count generalizing i os with
  | zero =>
    cases read
    exact ⟨rfl, inside, rfl, by simp⟩
  | succ count ih =>
    simp only [readOffers] at read
    split at read
    · cases read
    split at read
    · cases read
    rename_i longName
    split at read
    · cases read
    rename_i longBlob
    generalize hn : leAt b i 2 = n at read longName longBlob
    generalize hm : leAt b (i + 2 + n) 2 = m at read longBlob
    obtain ⟨⟨rest, stop'⟩, later, form⟩ := Option.map_eq_some_iff.mp read
    cases form
    obtain ⟨tail, bound, length, fits⟩ := ih (by omega) later
    have name : ((b.drop (i + 2)).take n).length = n := by
      rw [List.length_take, List.length_drop]
      omega
    have blob : ((b.drop (i + 2 + n + 2)).take m).length = m := by
      rw [List.length_take, List.length_drop]
      omega
    have mine : Offer.Fits ⟨(b.drop (i + 2)).take n, (b.drop (i + 2 + n + 2)).take m⟩ :=
      ⟨by rw [name, ← hn]; exact leAt_lt b i 2, by rw [blob, ← hm]; exact leAt_lt b _ 2⟩
    refine ⟨?_, bound, by simp [length], List.forall_mem_cons.mpr ⟨mine, fits⟩⟩
    have cut (j k : Nat) : b.drop j = (b.drop j).take k ++ b.drop (j + k) := by
      rw [← List.drop_drop, List.take_append_drop]
    calc b.drop i = putLE 2 n ++ b.drop (i + 2) := hn ▸ drop_eq_putLE (by omega)
      _ = putLE 2 n ++ ((b.drop (i + 2)).take n ++ b.drop (i + 2 + n)) := by rw [← cut]
      _ = putLE 2 n ++ ((b.drop (i + 2)).take n ++
          (putLE 2 m ++ b.drop (i + 2 + n + 2))) := by
        rw [← hm, ← drop_eq_putLE (by omega)]
      _ = putLE 2 n ++ ((b.drop (i + 2)).take n ++
          (putLE 2 m ++ ((b.drop (i + 2 + n + 2)).take m ++
            (encodeOffers rest ++ b.drop stop')))) := by
        rw [← tail, ← cut]
      _ = _ := by simp [encodeOffers, encodeOffer, name, blob]

theorem magic_halves (long : kIdentityBytes + 4 ≤ b.length)
    (magic : leAt b kIdentityBytes 4 = kMetadataMagic) :
    leAt b kIdentityBytes 2 = kMetadataMagic % 0x10000 ∧
      leAt b (kIdentityBytes + 2) 2 = kMetadataMagic / 0x10000 := by
  have halves := leAt_add (b := b) (i := kIdentityBytes) (v := 2) (by omega) 2
  have low := leAt_lt b kIdentityBytes 2
  rw [magic] at halves
  omega

/-- An accepted envelope was written as what is read from it is. -/
theorem encodeEnvelope_of_readMetadata (mine : Identity) (long : kIdentityBytes + 8 ≤ b.length)
    (magic : leAt b kIdentityBytes 4 = kMetadataMagic)
    (major : leAt b (kIdentityBytes + 4) 2 = kMetadataMajor) :
    readMetadata mine b = .error .invalidArgument ∨
      ∃ m, readMetadata mine b = .ok m ∧ m.Fits ∧
        b = encodeEnvelope (leAt b (kIdentityBytes + 6) 2) m.identity m.offered := by
  have envelope : (decide (kIdentityBytes + 8 ≤ b.length) &&
      leAt b kIdentityBytes 4 == kMetadataMagic) = true := by
    simp [long, magic]
  have ident : decodeIdentity b 0 = .ok ⟨leAt b 0 8, leAt b 8 8, leAt b 16 8⟩ := by
    rw [decodeIdentity, if_neg (by omega)]
  rw [readMetadata, envelope, if_pos rfl, if_neg (not_not.mpr major), ident]
  dsimp only
  by_cases short : b.length < kIdentityBytes + 10
  · exact .inl (if_pos short)
  rw [if_neg short]
  cases read : readOffers b (leAt b (kIdentityBytes + 8) 2) (kIdentityBytes + 10) with
  | none => exact .inl rfl
  | some x =>
    obtain ⟨os, stop⟩ := x
    dsimp only
    by_cases whole : stop = b.length
    · obtain ⟨tail, -, count, fits⟩ := readOffers_inv (by omega) read
      rw [whole, List.drop_length, List.append_nil] at tail
      obtain ⟨low, high⟩ := magic_halves (by omega) magic
      refine .inr ⟨_, if_neg (not_not.mpr whole), ⟨?_, count ▸ leAt_lt b _ 2, fits⟩, ?_⟩
      · exact ⟨leAt_lt b _ 8, leAt_lt b _ 8, leAt_lt b _ 8⟩
      have long : 34 ≤ b.length := Nat.not_lt.mp short
      simp only [kIdentityBytes, Nat.reduceAdd] at low high major tail count ⊢
      have field {i w : Nat} (inside : i + w ≤ 34) :
          b.drop i = putLE w (leAt b i w) ++ b.drop (i + w) := drop_eq_putLE (by omega)
      calc b = b.drop 0 := rfl
        _ = _ := by
          rw [field (i := 0) (w := 8) (by decide), field (i := 8) (w := 8) (by decide),
            field (i := 16) (w := 8) (by decide), field (i := 24) (w := 2) (by decide),
            field (i := 26) (w := 2) (by decide), field (i := 28) (w := 2) (by decide),
            field (i := 30) (w := 2) (by decide), field (i := 32) (w := 2) (by decide), tail, low,
            high, major, ← count]
          simp [encodeEnvelope, encodeHead, encodeIdentity]
    · exact .inl (if_pos whole)

/-! ## Reading within the bytes -/

/-- The offers from `i` on, with the reads the loop makes; none if one is past
the end. -/
def readOffersWithin (b : Bytes) : Nat → Nat → Option (Option (List Offer × Nat))
  | 0, i => some (some ([], i))
  | count + 1, i =>
    if b.length < i + 2 then some none
    else do
      let n ← readLE b i 2
      let i := i + 2
      if b.length < i + n + 2 then some none
      else
        let name ← readBytes b i n
        let i := i + n
        let mlen ← readLE b i 2
        let i := i + 2
        if b.length < i + mlen then some none
        else
          let blob ← readBytes b i mlen
          let rest ← readOffersWithin b count (i + mlen)
          some (rest.map fun (os, stop) => (⟨name, blob⟩ :: os, stop))

/-- The magic, if there is room for one and a version. -/
def isEnvelopeWithin (b : Bytes) : Option Bool :=
  if kIdentityBytes + 8 ≤ b.length then do
    let low ← readLE b kIdentityBytes 2
    let high ← readLE b (kIdentityBytes + 2) 2
    some (low + 0x10000 * high == kMetadataMagic)
  else some false

def readMetadataWithin (mine : Identity) (b : Bytes) : Option (Except Status Metadata) := do
  if ← isEnvelopeWithin b then
    if (← readLE b (kIdentityBytes + 4) 2) ≠ kMetadataMajor then some (.error .unsupported)
    else
      match ← decodeIdentityWithin b 0 with
      | .error _ => some (.ok ⟨.zero, .remote, [], b⟩)
      | .ok id =>
        if b.length < kIdentityBytes + 10 then some (.error .invalidArgument)
        else
          match ← readOffersWithin b (← readLE b (kIdentityBytes + 8) 2) (kIdentityBytes + 10) with
          | none => some (.error .invalidArgument)
          | some (offered, stop) =>
            if stop ≠ b.length then some (.error .invalidArgument)
            else some (.ok ⟨id, localityOf mine id, offered, b.drop kIdentityBytes⟩)
  else some (.ok ⟨.zero, .remote, [], b⟩)

theorem readOffersWithin_eq (b : Bytes) (count i : Nat) :
    readOffersWithin b count i = some (readOffers b count i) := by
  induction count generalizing i with
  | zero => rfl
  | succ count ih =>
    simp only [readOffersWithin, readOffers]
    by_cases short : b.length < i + 2
    · simp [short]
    rw [if_neg short, if_neg short, readLE_of_le (by omega)]
    simp only [Option.bind_eq_bind, Option.bind_some]
    by_cases short : b.length < i + 2 + leAt b i 2 + 2
    · simp [short]
    rw [if_neg short, if_neg short, readBytes_of_le (by omega), readLE_of_le (by omega)]
    simp only [Option.bind_some]
    by_cases short : b.length < i + 2 + leAt b i 2 + 2 + leAt b (i + 2 + leAt b i 2) 2
    · simp [short]
    rw [if_neg short, if_neg short, readBytes_of_le (by omega), ih]
    simp only [Option.bind_some]

theorem isEnvelopeWithin_eq (b : Bytes) :
    isEnvelopeWithin b = some (decide (kIdentityBytes + 8 ≤ b.length) &&
      leAt b kIdentityBytes 4 == kMetadataMagic) := by
  unfold isEnvelopeWithin
  by_cases long : kIdentityBytes + 8 ≤ b.length
  · rw [if_pos long, readLE_of_le (by omega), readLE_of_le (by omega)]
    have halves := leAt_add (b := b) (i := kIdentityBytes) (v := 2) (by omega) 2
    simp [long, halves]
  · simp [long]

/-- No read of the source's is past the end. -/
theorem readMetadataWithin_eq (mine : Identity) (b : Bytes) :
    readMetadataWithin mine b = some (readMetadata mine b) := by
  unfold readMetadataWithin readMetadata
  rw [isEnvelopeWithin_eq]
  simp only [Option.bind_eq_bind, Option.bind_some]
  by_cases envelope : (decide (kIdentityBytes + 8 ≤ b.length) &&
      leAt b kIdentityBytes 4 == kMetadataMagic) = true
  · have long : kIdentityBytes + 8 ≤ b.length := by
      simp only [Bool.and_eq_true, decide_eq_true_eq] at envelope
      exact envelope.1
    rw [if_pos envelope, if_pos envelope, readLE_of_le (by omega), decodeIdentityWithin_eq]
    simp only [Option.bind_some]
    by_cases major : leAt b (kIdentityBytes + 4) 2 = kMetadataMajor
    · rw [if_neg (not_not.mpr major), if_neg (not_not.mpr major)]
      cases decodeIdentity b 0 with
      | error s => rfl
      | ok id =>
        dsimp only
        by_cases short : b.length < kIdentityBytes + 10
        · rw [if_pos short, if_pos short]
        rw [if_neg short, if_neg short, readLE_of_le (by omega)]
        simp only [Option.bind_some, readOffersWithin_eq]
        cases readOffers b (leAt b (kIdentityBytes + 8) 2) (kIdentityBytes + 10) with
        | none => rfl
        | some x =>
          dsimp only
          split <;> rfl
    · rw [if_pos major, if_pos major]
  · rw [if_neg envelope, if_neg envelope]

/-- Engine metadata is read back as written; an envelope is refused or was
written as what is read from it; and the bytes are never read past their end. -/
theorem metadata_is_read_back (mine : Identity) :
    (∀ id os, Identity.Fits id → os.length ≤ 65535 → (∀ o ∈ os, Offer.Fits o) →
      ∃ m, readMetadata mine (encodeEnvelope kMetadataMinor id os) = .ok m ∧
        m.identity = id ∧ m.offered = os) ∧
    (∀ b : Bytes, kIdentityBytes + 8 ≤ b.length → leAt b kIdentityBytes 4 = kMetadataMagic →
      leAt b (kIdentityBytes + 4) 2 = kMetadataMajor →
      readMetadata mine b = .error .invalidArgument ∨
        ∃ m, readMetadata mine b = .ok m ∧
          b = encodeEnvelope (leAt b (kIdentityBytes + 6) 2) m.identity m.offered) ∧
    ∀ b, readMetadataWithin mine b = some (readMetadata mine b) := by
  refine ⟨?_, ?_, readMetadataWithin_eq mine⟩
  · intro id os fits count offers
    have read := readMetadata_encodeEnvelope mine kMetadataMinor fits (by omega) offers []
    rw [List.append_nil, if_pos rfl] at read
    exact ⟨_, read, rfl, rfl⟩
  · intro b long magic major
    refine (encodeEnvelope_of_readMetadata mine long magic major).imp_right ?_
    rintro ⟨m, read, -, written⟩
    exact ⟨m, read, written⟩

theorem metadata_is_read_back_local :
    ∃ m, readMetadata ⟨1, 1, 1⟩
        (encodeEnvelope kMetadataMinor ⟨1, 1, 2⟩ [⟨nameLocal, [7]⟩]) = .ok m ∧
      m.identity = ⟨1, 1, 2⟩ ∧ m.offered = [⟨nameLocal, [7]⟩] :=
  (metadata_is_read_back ⟨1, 1, 1⟩).1 ⟨1, 1, 2⟩ [⟨nameLocal, [7]⟩] (by simp [Identity.Fits])
    (by decide) (by simp [Offer.Fits, nameLocal])

/-! ## Newer minors -/

/-- The envelope with another minor, and with more fields after what is known of
it. -/
def renewed (minor : Nat) (extra b : Bytes) : Bytes :=
  b.take (kIdentityBytes + 6) ++ (putLE 2 minor ++ (b.drop (kIdentityBytes + 8) ++ extra))

theorem renewed_encodeEnvelope (minor : Nat) (extra : Bytes) (old : Nat) (id : Identity)
    (os : List Offer) :
    renewed minor extra (encodeEnvelope old id os) = encodeEnvelope minor id os ++ extra := by
  have form : encodeEnvelope old id os = (encodeIdentity id ++
      (putLE 2 (kMetadataMagic % 0x10000) ++ (putLE 2 (kMetadataMagic / 0x10000) ++
        putLE 2 kMetadataMajor))) ++ (putLE 2 old ++ (putLE 2 os.length ++ encodeOffers os)) := by
    simp [encodeEnvelope, encodeHead]
  rw [renewed, form, List.take_left' (by simp [encodeIdentity, kIdentityBytes]),
    ← List.append_assoc _ (putLE 2 old), List.drop_left' (by simp [encodeIdentity, kIdentityBytes])]
  simp [encodeEnvelope, encodeHead]

variable {W : Type}

/-- Nothing is written by an engine without an offer. -/
theorem localMetadata_inv {setup : Setup W} {metadata : ProviderId → Option Bytes}
    (written : localMetadata setup metadata = .ok b) :
    ∃ os, os ≠ [] ∧ b = encodeEnvelope kMetadataMinor setup.identity os := by
  simp only [localMetadata] at written
  split at written
  · cases written
  · rename_i some
    cases written
    exact ⟨_, by simpa using some, rfl⟩

/-- An accepted envelope of an engine offers something. -/
theorem offered_of_localMetadata {theirs : Setup W} {metadata : ProviderId → Option Bytes}
    {mine : Identity} {m : Metadata} (written : localMetadata theirs metadata = .ok b)
    (accepted : readMetadata mine b = .ok m) :
    m.Fits ∧ m.offered ≠ [] ∧
      b = encodeEnvelope (leAt b (kIdentityBytes + 6) 2) m.identity m.offered := by
  obtain ⟨os, some, form⟩ := localMetadata_inv written
  obtain ⟨long, magic, major⟩ := envelope_encodeEnvelope kMetadataMinor theirs.identity os []
  rw [List.append_nil, ← form] at long magic major
  rcases encodeEnvelope_of_readMetadata mine (by omega) magic major with
    refused | ⟨m', read, fits, again⟩
  · rw [refused] at accepted
    cases accepted
  · obtain rfl : m' = m := Except.ok.inj (read.symm.trans accepted)
    refine ⟨fits, fun none => ?_, again⟩
    obtain ⟨o, os, rfl⟩ := List.exists_cons_of_ne_nil some
    have length := congrArg List.length (form.symm.trans again)
    rw [none, encodeEnvelope, encodeEnvelope, List.length_append, List.length_append,
      length_encodeHead, length_encodeHead] at length
    simp [encodeOffers, encodeOffer] at length

variable {T : Transport}

/-- Which transport is dialled, and how, does not depend on the bytes as a whole
where the peer offers something. -/
theorem addPeer_of_readMetadata (setup : Setup W) {b' : Bytes} {m m' : Metadata}
    (read : readMetadata setup.identity b = .ok m)
    (read' : readMetadata setup.identity b' = .ok m') (identity : m'.identity = m.identity)
    (locality : m'.locality = m.locality) (offered : m'.offered = m.offered)
    (some : m.offered ≠ []) : (addPeer setup b' : Engine T W Reply) = addPeer setup b := by
  have chosen : chooseProvider setup m' = chooseProvider setup m := by
    simp [chooseProvider, locality, offered, some]
  have others : siblings setup m' = siblings setup m := by
    funext p
    simp [siblings, locality, offered]
  simp only [addPeer, read, read', chosen, others, identity]

/-- With another minor alone it is taken just the same. -/
theorem addPeer_renewed {W' : Type} (setup : Setup W) (theirs : Setup W')
    (metadata : ProviderId → Option Bytes) (b : Bytes) (m : Metadata)
    (written : localMetadata theirs metadata = .ok b)
    (accepted : readMetadata setup.identity b = .ok m) (minor : Nat) :
    (addPeer setup (renewed minor [] b) : Engine T W Reply) = addPeer setup b := by
  obtain ⟨⟨fits, count, offers⟩, some, form⟩ := offered_of_localMetadata written accepted
  have again := readMetadata_encodeEnvelope setup.identity minor fits count offers []
  rw [if_pos rfl] at again
  have old := readMetadata_encodeEnvelope setup.identity (leAt b (kIdentityBytes + 6) 2) fits count
    offers []
  rw [if_pos rfl, List.append_nil, ← form, accepted] at old
  have old := Except.ok.inj old
  have renew := renewed_encodeEnvelope minor [] (leAt b (kIdentityBytes + 6) 2) m.identity m.offered
  rw [← form] at renew
  rw [renew]
  refine addPeer_of_readMetadata setup accepted again rfl ?_ rfl some
  rw [old]

/-- With anything appended it is refused, and nothing is dialled. -/
theorem addPeer_appended {W' : Type} (setup : Setup W) (theirs : Setup W')
    (metadata : ProviderId → Option Bytes) (b : Bytes) (m : Metadata)
    (written : localMetadata theirs metadata = .ok b)
    (accepted : readMetadata setup.identity b = .ok m) (minor : Nat) {extra : Bytes}
    (some : extra ≠ []) :
    (addPeer setup (renewed minor extra b) : Engine T W Reply) =
      pure (.peer .invalidArgument none) := by
  obtain ⟨⟨fits, count, offers⟩, -, form⟩ := offered_of_localMetadata written accepted
  have refused := readMetadata_encodeEnvelope setup.identity minor fits count offers extra
  have renew := renewed_encodeEnvelope minor extra (leAt b (kIdentityBytes + 6) 2) m.identity
    m.offered
  rw [← form] at renew
  rw [if_neg some, ← renew] at refused
  simp only [addPeer, refused]

/-- An envelope that an engine wrote is taken the same with another minor just
when nothing is appended to it. -/
theorem newer_minor_is_accepted {T : Transport} {W W' : Type} (setup : Setup W) (theirs : Setup W')
    (metadata : ProviderId → Option Bytes) (b : Bytes) (m : Metadata)
    (written : localMetadata theirs metadata = .ok b)
    (accepted : readMetadata setup.identity b = .ok m) (minor : Nat) (extra : Bytes) :
    (addPeer setup (renewed minor extra b) : Engine T W Reply) = addPeer setup b ↔ extra = [] := by
  constructor
  · intro same
    by_contra some
    rw [addPeer_appended setup theirs metadata b m written accepted minor some] at same
    simp only [addPeer, accepted] at same
    cases chosen : chooseProvider setup m with
    | none =>
      rw [chosen] at same
      cases same
    | some choice =>
      rw [chosen] at same
      cases same
  · rintro rfl
    exact addPeer_renewed setup theirs metadata b m written accepted minor

namespace Pair

/-- The engine of another part of the process. -/
def neighbour : Setup ℚ := { setup with identity := ⟨1, 1, 2⟩ }

def neighbourMetadata : Bytes :=
  encodeEnvelope kMetadataMinor ⟨1, 1, 2⟩ [⟨nameLocal, [7]⟩]

def neighbourRead : Metadata :=
  ⟨⟨1, 1, 2⟩, .sameProcess, [⟨nameLocal, [7]⟩], neighbourMetadata.drop kIdentityBytes⟩

end Pair

theorem newer_minor_is_accepted_pair :
    (addPeer Pair.setup (renewed 1 [] Pair.neighbourMetadata) : Engine Pair.transport ℚ Reply) =
      addPeer Pair.setup Pair.neighbourMetadata :=
  (newer_minor_is_accepted Pair.setup Pair.neighbour (fun _ => some [7]) Pair.neighbourMetadata
    Pair.neighbourRead (by decide +kernel) (by decide +kernel) 1 []).mpr rfl

/-- One byte is appended, and the peer is refused. -/
theorem newer_minor_is_refused :
    localMetadata Pair.neighbour (fun _ => some [7]) = .ok Pair.neighbourMetadata ∧
      readMetadata Pair.setup.identity Pair.neighbourMetadata = .ok Pair.neighbourRead ∧
      chooseProvider Pair.setup Pair.neighbourRead = some (0, [7]) ∧
      (addPeer Pair.setup (renewed 1 [0] Pair.neighbourMetadata) : Engine Pair.transport ℚ Reply) =
        pure (.peer .invalidArgument none) := by
  have written : localMetadata Pair.neighbour (fun _ => some [7]) = .ok Pair.neighbourMetadata := by
    decide +kernel
  have read : readMetadata Pair.setup.identity Pair.neighbourMetadata = .ok Pair.neighbourRead := by
    decide +kernel
  exact ⟨written, read, by decide +kernel,
    addPeer_appended Pair.setup Pair.neighbour _ _ _ written read 1 (by decide)⟩

end Hux
