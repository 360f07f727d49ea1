import Hux.Types

/-!
# Identities and region descriptors on the wire

`encode_identity`, `encode_descriptor` and their readers. A descriptor is the
fixed fields, a count, and that many named keys.

* `decode_encode` reads back what was written;
* `encode_of_decode`: what is accepted was written so, but for the minor, or is
  the fixed fields alone;
* `decodeDescriptorWithin`: the same reader, with every read it makes of the
  buffer.
-/

namespace Hux
open Wire

def kIdentityBytes : Nat := 24

def encodeIdentity (id : Identity) : Bytes :=
  putLE 8 id.host ++ putLE 8 id.process ++ putLE 8 id.engine

def decodeIdentity (b : Bytes) (offset : Nat) : Except Status Identity :=
  if b.length < offset + kIdentityBytes then .error .invalidArgument
  else .ok ⟨leAt b offset 8, leAt b (offset + 8) 8, leAt b (offset + 16) 8⟩

def kDescriptorMajor : Nat := 2
def kDescriptorMinor : Nat := 0
def kDescriptorBytes : Nat := 73

/-- A remote key with the name of the provider that minted it. -/
structure ProviderKey where
  provider : Bytes
  remoteKey : Nat
  deriving DecidableEq, Repr

structure RegionDescriptor where
  major : Nat
  minor : Nat
  origin : Identity
  region : RegionId
  generation : Generation
  base : Nat
  length : Nat
  remoteKey : Nat
  providerKeys : List ProviderKey
  device : DeviceId
  access : AccessFlags
  deriving DecidableEq, Repr

def encodeKey (k : ProviderKey) : Bytes :=
  putLE 2 k.provider.length ++ (k.provider ++ putLE 8 k.remoteKey)

def encodeKeys (ks : List ProviderKey) : Bytes := ks.flatMap encodeKey

/-- The fixed 73 bytes. -/
def encodeFixed (d : RegionDescriptor) : Bytes :=
  putLE 2 kDescriptorMajor ++ (putLE 2 kDescriptorMinor ++ (putLE 8 d.origin.host ++
  (putLE 8 d.origin.process ++ (putLE 8 d.origin.engine ++ (putLE 8 d.region ++
  (putLE 4 d.generation ++ (putLE 8 d.base ++ (putLE 8 d.length ++ (putLE 8 d.remoteKey ++
  (putLE 1 d.device.kind.toNat ++ (putLE 4 d.device.index.toNat ++
  putLE 4 d.access.toNat)))))))))))

def encodeDescriptor (d : RegionDescriptor) : Bytes :=
  encodeFixed d ++ (putLE 2 d.providerKeys.length ++ encodeKeys d.providerKeys)

/-- The loop over the keys; `p` is what remains of the buffer. -/
def decodeKeys : Nat → Bytes → Except Status (List ProviderKey)
  | 0, p => if p.length = 0 then .ok [] else .error .invalidArgument
  | count + 1, p =>
    if p.length < 2 then .error .invalidArgument
    else
      let n := leAt p 0 2
      let p := p.drop 2
      if p.length < n + 8 then .error .invalidArgument
      else (decodeKeys count (p.drop (n + 8))).map (⟨p.take n, leAt p n 8⟩ :: ·)

/-- What follows the fixed fields: nothing, or a count and the keys. -/
def decodeTail (p : Bytes) : Except Status (List ProviderKey) :=
  if p.length < 2 then
    if p.length = 0 then .ok [] else .error .invalidArgument
  else decodeKeys (leAt p 0 2) (p.drop 2)

def decodeDescriptor (buf : Bytes) : Except Status RegionDescriptor :=
  if buf.length < kDescriptorBytes then .error .invalidArgument
  else if leAt buf 0 2 ≠ kDescriptorMajor then .error .unsupported
  else do
    let origin ← decodeIdentity buf 4
    let keys ← decodeTail (buf.drop kDescriptorBytes)
    return {
      major := leAt buf 0 2
      minor := leAt buf 2 2
      origin := origin
      region := leAt buf 28 8
      generation := leAt buf 36 4
      base := leAt buf 40 8
      length := leAt buf 48 8
      remoteKey := leAt buf 56 8
      providerKeys := keys
      device := ⟨UInt8.ofNat (leAt buf 64 1), BitVec.ofNat 32 (leAt buf 65 4)⟩
      access := BitVec.ofNat 32 (leAt buf 69 4) }

/-! ## Reading back what was written -/

def Identity.Fits (id : Identity) : Prop :=
  id.host < 2 ^ 64 ∧ id.process < 2 ^ 64 ∧ id.engine < 2 ^ 64

def ProviderKey.Fits (k : ProviderKey) : Prop :=
  k.provider.length < 2 ^ 16 ∧ k.remoteKey < 2 ^ 64

/-- Every field is within the width the source's type gives it. -/
structure RegionDescriptor.Fits (d : RegionDescriptor) : Prop where
  origin : d.origin.Fits
  region : d.region < 2 ^ 64
  generation : d.generation < 2 ^ 32
  base : d.base < 2 ^ 64
  length : d.length < 2 ^ 64
  remoteKey : d.remoteKey < 2 ^ 64
  count : d.providerKeys.length < 2 ^ 16
  keys : ∀ k ∈ d.providerKeys, k.Fits

theorem decodeKeys_encodeKeys (ks : List ProviderKey) (fits : ∀ k ∈ ks, k.Fits) :
    decodeKeys ks.length (encodeKeys ks) = .ok ks := by
  induction ks with
  | nil => rfl
  | cons k ks ih =>
    have hk := fits k (List.mem_cons_self ..)
    have ih := ih (fun x hx => fits x (List.mem_cons_of_mem _ hx))
    have form : encodeKeys (k :: ks) =
        putLE 2 k.provider.length ++ (k.provider ++ (putLE 8 k.remoteKey ++ encodeKeys ks)) := by
      simp [encodeKeys, encodeKey]
    have name : leAt (encodeKeys (k :: ks)) 0 2 = k.provider.length := by
      rw [form]; exact leAt_head 2 _ _ hk.1
    have rest : (encodeKeys (k :: ks)).drop 2 =
        k.provider ++ (putLE 8 k.remoteKey ++ encodeKeys ks) := by
      rw [form]; exact List.drop_left' (by simp)
    have key : leAt (k.provider ++ (putLE 8 k.remoteKey ++ encodeKeys ks)) k.provider.length 8 =
        k.remoteKey := by
      rw [leAt_skip _ _ _ _ (Nat.le_refl _), Nat.sub_self]
      exact leAt_head 8 _ _ hk.2
    have after : (k.provider ++ (putLE 8 k.remoteKey ++ encodeKeys ks)).drop
        (k.provider.length + 8) = encodeKeys ks := by
      rw [← List.append_assoc]; exact List.drop_left' (by simp)
    have long : ¬(encodeKeys (k :: ks)).length < 2 := by
      rw [form, List.length_append, length_putLE]
      omega
    have long' : ¬(k.provider ++ (putLE 8 k.remoteKey ++ encodeKeys ks)).length <
        k.provider.length + 8 := by simp
    simp only [List.length_cons, decodeKeys, if_neg long, name, rest, if_neg long', after, ih, key,
      List.take_left]
    rfl

theorem decodeTail_encode (ks : List ProviderKey) (count : ks.length < 2 ^ 16)
    (fits : ∀ k ∈ ks, k.Fits) :
    decodeTail (putLE 2 ks.length ++ encodeKeys ks) = .ok ks := by
  have long : ¬(putLE 2 ks.length ++ encodeKeys ks).length < 2 := by
    rw [List.length_append, length_putLE]
    omega
  rw [decodeTail, if_neg long, leAt_head 2 _ _ count, List.drop_left' (by simp)]
  exact decodeKeys_encodeKeys ks fits

theorem length_encodeFixed (d : RegionDescriptor) : (encodeFixed d).length = kDescriptorBytes := by
  simp [encodeFixed, kDescriptorBytes]

variable {ks : List ProviderKey}

/-- The fixed fields read back, whatever keys come after them. -/
theorem decode_fixed (d : RegionDescriptor) (fits : d.Fits) {tail : Bytes}
    (read : decodeTail tail = .ok ks) :
    decodeDescriptor (encodeFixed d ++ tail) =
      .ok { d with major := kDescriptorMajor, minor := kDescriptorMinor, providerKeys := ks } := by
  obtain ⟨⟨host, process, engine⟩, region, generation, base, length, key, -, -⟩ := fits
  have long : ¬(encodeFixed d ++ tail).length < kDescriptorBytes := by
    rw [List.length_append, length_encodeFixed]; omega
  have rest : decodeTail ((encodeFixed d ++ tail).drop kDescriptorBytes) = .ok ks := by
    rwa [List.drop_left' (length_encodeFixed d)]
  have kind : d.device.kind.toNat < 256 ^ 1 := d.device.kind.toNat_lt
  have index : d.device.index.toNat < 256 ^ 4 := d.device.index.isLt
  have access : d.access.toNat < 256 ^ 4 := d.access.isLt
  have ident : decodeIdentity (encodeFixed d ++ tail) 4 = .ok d.origin := by
    have : ¬(encodeFixed d ++ tail).length < 4 + kIdentityBytes := by
      simp only [kDescriptorBytes] at long; simp only [kIdentityBytes]; omega
    rw [decodeIdentity, if_neg this]
    simp [encodeFixed, leAt_skip, leAt_head 8 _ _ host, leAt_head 8 _ _ process,
      leAt_head 8 _ _ engine]
  simp only [decodeDescriptor, if_neg long, ident, rest]
  simp [encodeFixed, leAt_skip, leAt_head 2 kDescriptorMajor _ (by decide),
    leAt_head 2 kDescriptorMinor _ (by decide), leAt_head 8 _ _ region,
    leAt_head 4 _ _ generation, leAt_head 8 _ _ base, leAt_head 8 _ _ length,
    leAt_head 8 _ _ key, leAt_head 1 _ _ kind, leAt_head 4 _ _ index, leAt_head 4 _ _ access,
    bind, Except.bind, pure, Except.pure]

/-- A descriptor read from what an exporter wrote is the one it wrote, at this
version. -/
theorem decode_encode (d : RegionDescriptor) (fits : d.Fits) :
    decodeDescriptor (encodeDescriptor d) =
      .ok { d with major := kDescriptorMajor, minor := kDescriptorMinor } :=
  decode_fixed d fits (decodeTail_encode _ fits.count fits.keys)

/-! ## What is accepted -/

theorem decodeKeys_inv {count : Nat} {p : Bytes} (decoded : decodeKeys count p = .ok ks) :
    p = encodeKeys ks ∧ ks.length = count ∧ ∀ k ∈ ks, k.Fits := by
  induction count generalizing p ks with
  | zero =>
    simp only [decodeKeys] at decoded
    split at decoded
    · rename_i empty
      cases decoded
      exact ⟨List.length_eq_zero_iff.mp empty, rfl, by simp⟩
    · cases decoded
  | succ count ih =>
    simp only [decodeKeys] at decoded
    split at decoded
    · cases decoded
    rename_i long
    split at decoded
    · cases decoded
    rename_i long'
    cases later : decodeKeys count ((p.drop 2).drop (leAt p 0 2 + 8)) with
    | error s =>
      rw [later] at decoded
      cases decoded
    | ok rest =>
      simp only [later, Except.map, Except.ok.injEq] at decoded
      subst decoded
      obtain ⟨tail, length, fits⟩ := ih later
      have name : ((p.drop 2).take (leAt p 0 2)).length = leAt p 0 2 := by
        rw [List.length_take]
        omega
      have head : p = putLE 2 (leAt p 0 2) ++ p.drop 2 := drop_eq_putLE (i := 0) (by omega)
      have key := drop_eq_putLE (b := p.drop 2) (i := leAt p 0 2) (w := 8) (by omega)
      have whole : p.drop 2 = (p.drop 2).take (leAt p 0 2) ++ (p.drop 2).drop (leAt p 0 2) :=
        (List.take_append_drop _ _).symm
      refine ⟨?_, by simp [length], List.forall_mem_cons.mpr ⟨⟨?_, leAt_lt _ _ 8⟩, fits⟩⟩
      · calc p = putLE 2 (leAt p 0 2) ++ p.drop 2 := head
          _ = putLE 2 (leAt p 0 2) ++ ((p.drop 2).take (leAt p 0 2) ++
              (putLE 8 (leAt (p.drop 2) (leAt p 0 2) 8) ++ encodeKeys rest)) := by
            rw [← tail, ← key, ← whole]
          _ = _ := by simp [encodeKeys, encodeKey, name]
      · rw [name]
        exact leAt_lt p 0 2

theorem decodeTail_inv {p : Bytes} (decoded : decodeTail p = .ok ks) :
    p = [] ∧ ks = [] ∨
      p = putLE 2 ks.length ++ encodeKeys ks ∧ ks.length < 2 ^ 16 ∧ ∀ k ∈ ks, k.Fits := by
  unfold decodeTail at decoded
  split at decoded
  · split at decoded
    · rename_i empty
      cases decoded
      exact .inl ⟨List.length_eq_zero_iff.mp empty, rfl⟩
    · cases decoded
  · rename_i long
    obtain ⟨keys, length, fits⟩ := decodeKeys_inv decoded
    refine .inr ⟨?_, length ▸ leAt_lt p 0 2, fits⟩
    rw [← keys, length]
    exact drop_eq_putLE (i := 0) (by omega)

variable {b : Bytes} {d : RegionDescriptor}

/-- The fixed fields of a buffer are those of what is read from it, but for the
versions. -/
theorem encodeFixed_of_decode (decoded : decodeDescriptor b = .ok d) :
    kDescriptorBytes ≤ b.length ∧ decodeTail (b.drop kDescriptorBytes) = .ok d.providerKeys ∧
      b = (encodeFixed d).take 2 ++ (putLE 2 d.minor ++
        ((encodeFixed d).drop 4 ++ b.drop kDescriptorBytes)) := by
  unfold decodeDescriptor at decoded
  split at decoded
  · cases decoded
  rename_i long
  have long : kDescriptorBytes ≤ b.length := Nat.not_lt.mp long
  split at decoded
  · cases decoded
  rename_i major
  have major : leAt b 0 2 = kDescriptorMajor := not_not.mp major
  have ident : decodeIdentity b 4 = .ok ⟨leAt b 4 8, leAt b 12 8, leAt b 20 8⟩ := by
    rw [decodeIdentity, if_neg]
    simp only [kDescriptorBytes] at long
    simp only [kIdentityBytes]
    omega
  rw [ident] at decoded
  cases tail : decodeTail (b.drop kDescriptorBytes) with
  | error s => simp [tail, bind, Except.bind] at decoded
  | ok keys =>
    simp only [tail, bind, Except.bind, pure, Except.pure, Except.ok.injEq] at decoded
    subst decoded
    refine ⟨long, rfl, ?_⟩
    simp only [kDescriptorBytes] at long ⊢
    have field {i w : Nat} (inside : i + w ≤ 73) :
        b.drop i = putLE w (leAt b i w) ++ b.drop (i + w) :=
      drop_eq_putLE (by omega)
    have kind : (UInt8.ofNat (leAt b 64 1)).toNat = leAt b 64 1 := by
      have := leAt_lt b 64 1
      simp only [UInt8.toNat_ofNat']
      omega
    have index : (BitVec.ofNat 32 (leAt b 65 4)).toNat = leAt b 65 4 := by
      have := leAt_lt b 65 4
      simp only [BitVec.toNat_ofNat]
      omega
    have access : (BitVec.ofNat 32 (leAt b 69 4)).toNat = leAt b 69 4 := by
      have := leAt_lt b 69 4
      simp only [BitVec.toNat_ofNat]
      omega
    calc b = b.drop 0 := rfl
      _ = _ := by
        rw [field (i := 0) (w := 2) (by decide), field (i := 2) (w := 2) (by decide),
          field (i := 4) (w := 8) (by decide), field (i := 12) (w := 8) (by decide),
          field (i := 20) (w := 8) (by decide), field (i := 28) (w := 8) (by decide),
          field (i := 36) (w := 4) (by decide), field (i := 40) (w := 8) (by decide),
          field (i := 48) (w := 8) (by decide), field (i := 56) (w := 8) (by decide),
          field (i := 64) (w := 1) (by decide), field (i := 65) (w := 4) (by decide),
          field (i := 69) (w := 4) (by decide), major]
        simp [encodeFixed, kind, index, access, List.drop_append]

/-- Whatever is accepted is the fixed fields alone, or was written as what is
read from it is, but for the minor. -/
theorem encode_of_decode (decoded : decodeDescriptor b = .ok d) :
    b.length = kDescriptorBytes ∧ d.providerKeys = [] ∨
      b = (encodeDescriptor d).take 2 ++ (putLE 2 d.minor ++ (encodeDescriptor d).drop 4) ∧
        d.providerKeys.length < 2 ^ 16 ∧ ∀ k ∈ d.providerKeys, k.Fits := by
  obtain ⟨long, tail, whole⟩ := encodeFixed_of_decode decoded
  have fixed := length_encodeFixed d
  simp only [kDescriptorBytes] at long fixed
  rcases decodeTail_inv tail with ⟨empty, none⟩ | ⟨written, count, fits⟩
  · have short := congrArg List.length empty
    simp only [List.length_drop, List.length_nil, kDescriptorBytes] at short
    exact .inl ⟨by simp only [kDescriptorBytes]; omega, none⟩
  · refine .inr ⟨?_, count, fits⟩
    rw [encodeDescriptor, List.take_append_of_le_length (by omega),
      List.drop_append_of_le_length (by omega), ← written]
    exact whole

/-! ## Reading within the buffer -/

/-- `decode_identity` with the reads it makes; none if one is past the end. -/
def decodeIdentityWithin (b : Bytes) (offset : Nat) : Option (Except Status Identity) :=
  if b.length < offset + kIdentityBytes then some (.error .invalidArgument)
  else do
    let host ← readLE b offset 8
    let process ← readLE b (offset + 8) 8
    let engine ← readLE b (offset + 16) 8
    return .ok ⟨host, process, engine⟩

theorem decodeIdentityWithin_eq (b : Bytes) (offset : Nat) :
    decodeIdentityWithin b offset = some (decodeIdentity b offset) := by
  unfold decodeIdentityWithin decodeIdentity
  split
  · rfl
  · rename_i long
    simp only [kIdentityBytes] at long
    simp [readLE_of_le (b := b) (i := offset) (w := 8) (by omega),
      readLE_of_le (b := b) (i := offset + 8) (w := 8) (by omega),
      readLE_of_le (b := b) (i := offset + 16) (w := 8) (by omega)]

/-- The loop over the keys: `p` is where it reads, and `remaining` what it takes
to be left from there. -/
def decodeKeysWithin (buf : Bytes) :
    Nat → Nat → Nat → List ProviderKey → Option (Except Status (List ProviderKey))
  | 0, _, remaining, keys =>
    some (if remaining = 0 then .ok keys else .error .invalidArgument)
  | count + 1, p, remaining, keys =>
    if remaining < 2 then some (.error .invalidArgument)
    else do
      let n ← readLE buf p 2
      let p := p + 2
      let remaining := remaining - 2
      if remaining < n + 8 then some (.error .invalidArgument)
      else
        let provider ← readBytes buf p n
        let p := p + n
        let remoteKey ← readLE buf p 8
        decodeKeysWithin buf count (p + 8) (remaining - (n + 8)) (keys ++ [⟨provider, remoteKey⟩])

def decodeTailWithin (buf : Bytes) (remaining : Nat) : Option (Except Status (List ProviderKey)) :=
  if remaining < 2 then some (if remaining = 0 then .ok [] else .error .invalidArgument)
  else do
    let count ← readLE buf kDescriptorBytes 2
    decodeKeysWithin buf count (kDescriptorBytes + 2) (remaining - 2) []

def decodeDescriptorWithin (buf : Bytes) : Option (Except Status RegionDescriptor) :=
  if buf.length < kDescriptorBytes then some (.error .invalidArgument)
  else do
    let major ← readLE buf 0 2
    let minor ← readLE buf 2 2
    if major ≠ kDescriptorMajor then some (.error .unsupported)
    else
      match ← decodeIdentityWithin buf 4 with
      | .error _ => some (.error .invalidArgument)
      | .ok origin =>
        let region ← readLE buf 28 8
        let generation ← readLE buf 36 4
        let base ← readLE buf 40 8
        let length ← readLE buf 48 8
        let remoteKey ← readLE buf 56 8
        let kind ← readLE buf 64 1
        let index ← readLE buf 65 4
        let access ← readLE buf 69 4
        match ← decodeTailWithin buf (buf.length - kDescriptorBytes) with
        | .error s => some (.error s)
        | .ok keys =>
          some (.ok {
            major := major
            minor := minor
            origin := origin
            region := region
            generation := generation
            base := base
            length := length
            remoteKey := remoteKey
            providerKeys := keys
            device := ⟨UInt8.ofNat kind, BitVec.ofNat 32 index⟩
            access := BitVec.ofNat 32 access })

/-- Where `remaining` is what is left, no read of the loop is past the end. -/
theorem decodeKeysWithin_eq (buf : Bytes) (count p : Nat) (inside : p ≤ buf.length)
    (keys : List ProviderKey) :
    decodeKeysWithin buf count p (buf.length - p) keys =
      some ((decodeKeys count (buf.drop p)).map (keys ++ ·)) := by
  induction count generalizing p keys with
  | zero =>
    simp only [decodeKeysWithin, decodeKeys, List.length_drop]
    split <;> simp [Except.map]
  | succ count ih =>
    simp only [decodeKeysWithin, decodeKeys, List.length_drop]
    by_cases short : buf.length - p < 2
    · simp [short, Except.map]
    have name : leAt (buf.drop p) 0 2 = leAt buf p 2 := by simp [leAt]
    rw [if_neg short, if_neg short, name, readLE_of_le (by omega)]
    simp only [Option.bind_eq_bind, Option.bind_some]
    by_cases short' : buf.length - p - 2 < leAt buf p 2 + 8
    · simp [short', Except.map]
    have key : leAt ((buf.drop p).drop 2) (leAt buf p 2) 8 = leAt buf (p + 2 + leAt buf p 2) 8 := by
      simp [leAt, Nat.add_assoc]
    rw [if_neg short', if_neg short', readBytes_of_le (by omega), readLE_of_le (by omega), key]
    simp only [Option.bind_some]
    have left : buf.length - p - 2 - (leAt buf p 2 + 8) =
        buf.length - (p + 2 + leAt buf p 2 + 8) := by omega
    rw [left, ih _ (by omega)]
    simp only [List.drop_drop, Nat.add_assoc]
    cases decodeKeys count (buf.drop (p + (2 + (leAt buf p 2 + 8)))) <;> simp [Except.map]

theorem decodeTailWithin_eq {buf : Bytes} (long : kDescriptorBytes ≤ buf.length) :
    decodeTailWithin buf (buf.length - kDescriptorBytes) =
      some (decodeTail (buf.drop kDescriptorBytes)) := by
  unfold decodeTailWithin decodeTail
  rw [List.length_drop]
  by_cases short : buf.length - kDescriptorBytes < 2
  · simp [short]
  have count : leAt (buf.drop kDescriptorBytes) 0 2 = leAt buf kDescriptorBytes 2 := by simp [leAt]
  have left : buf.length - kDescriptorBytes - 2 = buf.length - (kDescriptorBytes + 2) := by omega
  rw [if_neg short, if_neg short, readLE_of_le (by omega), count, left]
  simp only [Option.bind_eq_bind, Option.bind_some]
  rw [decodeKeysWithin_eq _ _ _ (by omega), List.drop_drop]
  cases decodeKeys (leAt buf kDescriptorBytes 2) (buf.drop (kDescriptorBytes + 2)) <;>
    simp [Except.map]

/-- No read of the source's is past the end. -/
theorem decodeDescriptorWithin_eq (buf : Bytes) :
    decodeDescriptorWithin buf = some (decodeDescriptor buf) := by
  unfold decodeDescriptorWithin decodeDescriptor
  by_cases short : buf.length < kDescriptorBytes
  · simp [short]
  have long : kDescriptorBytes ≤ buf.length := Nat.not_lt.mp short
  have fixed {i w : Nat} (inside : i + w ≤ kDescriptorBytes) :
      readLE buf i w = some (leAt buf i w) := readLE_of_le (inside.trans long)
  rw [if_neg short, if_neg short, fixed (by decide), fixed (by decide), fixed (by decide),
    fixed (by decide), fixed (by decide), fixed (by decide), fixed (by decide), fixed (by decide),
    fixed (by decide), fixed (by decide), decodeIdentityWithin_eq, decodeTailWithin_eq long]
  simp only [Option.bind_eq_bind, Option.bind_some]
  by_cases major : leAt buf 0 2 = kDescriptorMajor
  · have ident : decodeIdentity buf 4 = .ok ⟨leAt buf 4 8, leAt buf 12 8, leAt buf 20 8⟩ := by
      rw [decodeIdentity, if_neg]
      exact Nat.not_lt.mpr (Nat.le_trans (by decide) long)
    rw [ident]
    cases decodeTail (buf.drop kDescriptorBytes) <;>
      simp [major, bind, Except.bind, pure, Except.pure]
  · simp [major]

/-- Descriptors are read back as written; nothing else is accepted but the fixed
fields alone, and other minors; and the buffer is never read past its end. -/
theorem descriptor_codec_is_exact :
    (∀ d : RegionDescriptor, d.Fits → decodeDescriptor (encodeDescriptor d) =
      .ok { d with major := kDescriptorMajor, minor := kDescriptorMinor }) ∧
    (∀ b d, decodeDescriptor b = .ok d →
      b.length = kDescriptorBytes ∧ d.providerKeys = [] ∨
        b = (encodeDescriptor d).take 2 ++ (putLE 2 d.minor ++ (encodeDescriptor d).drop 4)) ∧
    ∀ b, decodeDescriptorWithin b = some (decodeDescriptor b) := by
  refine ⟨decode_encode, fun b d decoded => ?_, decodeDescriptorWithin_eq⟩
  exact (encode_of_decode decoded).imp_right And.left

/-- A region with a key for each of two transports. -/
def exported : RegionDescriptor where
  major := kDescriptorMajor
  minor := kDescriptorMinor
  origin := ⟨1, 2, 3⟩
  region := 4
  generation := 1
  base := 4096
  length := 16
  remoteKey := 7
  providerKeys := [⟨[0x69, 0x70, 0x63], 7⟩, ⟨[0x72, 0x64, 0x6d, 0x61], 8⟩]
  device := ⟨0, 0⟩
  access := AccessFlags.remoteRead

theorem fits_exported : exported.Fits where
  origin := by simp [Identity.Fits, exported]
  region := by decide
  generation := by decide
  base := by decide
  length := by decide
  remoteKey := by decide
  count := by decide
  keys := by simp [ProviderKey.Fits, exported]

theorem descriptor_codec_is_exact_exported :
    exported.Fits ∧ decodeDescriptor (encodeDescriptor exported) = .ok exported :=
  ⟨fits_exported, descriptor_codec_is_exact.1 exported fits_exported⟩

/-! ## Cut short -/

/-- As many keys, written as the beginning of what others are written as, are
the same keys. -/
theorem encodeKeys_prefix {ks' : List ProviderKey} (fits : ∀ k ∈ ks, k.Fits)
    (fits' : ∀ k ∈ ks', k.Fits) (length : ks'.length = ks.length)
    (first : encodeKeys ks' <+: encodeKeys ks) : ks' = ks := by
  induction ks generalizing ks' with
  | nil => exact List.length_eq_zero_iff.mp length
  | cons k ks ih =>
    obtain - | ⟨k', ks'⟩ := ks'
    · cases length
    obtain ⟨hk, fits⟩ := List.forall_mem_cons.mp fits
    obtain ⟨hk', fits'⟩ := List.forall_mem_cons.mp fits'
    simp only [encodeKeys, encodeKey, List.flatMap_cons, List.append_assoc] at first
    obtain ⟨long, first⟩ := append_prefix (by simp) first
    have long := putLE_inj hk'.1 hk.1 long
    obtain ⟨name, first⟩ := append_prefix long first
    obtain ⟨key, first⟩ := append_prefix (by simp) first
    have key := putLE_inj hk'.2 hk.2 key
    have same : k' = k := by
      cases k
      cases k'
      simp_all
    rw [same, ih fits fits' (Nat.succ.inj length) first]

/-- Whatever is accepted of a descriptor cut short ends with the fixed fields. -/
theorem length_of_decode_cut {d' : RegionDescriptor} (fits : d.Fits)
    (cut : b <+: encodeDescriptor d) (strict : b ≠ encodeDescriptor d)
    (decoded : decodeDescriptor b = .ok d') : b.length = kDescriptorBytes := by
  obtain ⟨long, tail, -⟩ := encodeFixed_of_decode decoded
  obtain ⟨rest, whole⟩ := cut
  have left : b.drop kDescriptorBytes ++ rest =
      putLE 2 d.providerKeys.length ++ encodeKeys d.providerKeys := by
    rw [← List.drop_append_of_le_length long, whole, encodeDescriptor,
      List.drop_left' (length_encodeFixed d)]
  rcases decodeTail_inv tail with ⟨empty, -⟩ | ⟨written, count, keys⟩
  · have short := congrArg List.length empty
    rw [List.length_drop, List.length_nil] at short
    omega
  · rw [written, List.append_assoc] at left
    obtain ⟨length, first⟩ := append_prefix (by simp) ⟨[], (List.append_nil _).trans left⟩
    have length := putLE_inj count fits.count length
    have same := encodeKeys_prefix fits.keys keys length ((List.prefix_append _ rest).trans first)
    rw [same] at left
    have none := congrArg List.length left
    simp only [List.length_append] at none
    have none : rest = [] := List.length_eq_zero_iff.mp (by omega)
    rw [none, List.append_nil] at whole
    exact absurd whole strict

/-- A descriptor cut short is refused just when it is not cut after the fixed
fields. -/
theorem truncated_descriptor_is_refused (d : RegionDescriptor) (fits : d.Fits)
    (b : Bytes) (cut : b <+: encodeDescriptor d) (strict : b ≠ encodeDescriptor d) :
    (∃ s, decodeDescriptor b = .error s) ↔ b.length ≠ kDescriptorBytes := by
  constructor
  · rintro ⟨s, refused⟩ fixed
    have written : b = encodeFixed d := by
      have first : encodeFixed d <+: encodeDescriptor d := List.prefix_append _ _
      have even : b.length = (encodeFixed d).length := fixed.trans (length_encodeFixed d).symm
      exact (List.prefix_of_prefix_length_le cut first even.le).eq_of_length even
    have none : decodeTail [] = .ok [] := rfl
    have read := decode_fixed d fits none
    rw [List.append_nil, ← written, refused] at read
    cases read
  · intro elsewhere
    cases decoded : decodeDescriptor b with
    | error s => exact ⟨s, rfl⟩
    | ok d' => exact absurd (length_of_decode_cut fits cut strict decoded) elsewhere

theorem truncated_descriptor_is_refused_in_key :
    ∃ s, decodeDescriptor ((encodeDescriptor exported).take 80) = .error s :=
  (truncated_descriptor_is_refused exported fits_exported _ (List.take_prefix _ _)
    (by decide +kernel)).mpr (by decide +kernel)

/-- Cut after the fixed fields it is accepted, as one with no keys by name. -/
theorem truncated_descriptor_is_accepted :
    (encodeDescriptor exported).take kDescriptorBytes <+: encodeDescriptor exported ∧
      (encodeDescriptor exported).take kDescriptorBytes ≠ encodeDescriptor exported ∧
      exported.providerKeys ≠ [] ∧ exported.Fits ∧
      decodeDescriptor ((encodeDescriptor exported).take kDescriptorBytes) =
        .ok { exported with providerKeys := [] } :=
  ⟨List.take_prefix _ _, by decide +kernel, by decide, fits_exported, by decide +kernel⟩

end Hux
