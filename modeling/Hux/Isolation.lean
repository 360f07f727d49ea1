import Hux.Local
import Hux.Replay

/-!
# Peers do not disturb each other

All peers share one table of imported regions and number their regions from one.
What `build_subops` makes of a peer's regions depends only on what was imported
into that peer and on the notices that are about it.

* `Directory.Tidy`: what every input keeps of the tables;
* `Alike`: tables that are the same to one peer;
* `History.alike`: leaving out what another peer sent leaves them so.
-/

namespace Hux
open Interleave (Tid Alone)
open Wire (Bytes)

section
variable {W : Type}

namespace Directory

/-! ## What inputs keep -/

structure Tidy (d : Directory W) : Prop where
  counted : 0 < d.nextPeer
  distinct : d.peers.Nodup
  numbers : ∀ p ∈ d.peers, 0 < p ∧ p < d.nextPeer
  dialled : ∀ p ∈ d.peers, ∀ c, d.hasConn c p = true → c < d.nextConn
  apart : ∀ p ∈ d.peers, ∀ p' ∈ d.peers, ∀ c, d.hasConn c p = true → d.hasConn c p' = true → p = p'
  indexed : d.Indexed
  into : ∀ x ∈ d.remotes, x.1.1 ∈ d.peers
  origin : ∀ x ∈ d.remotes, (d.peerObjects x.1.1).identity ≠ .zero →
    (d.remoteObjects x.2).desc.origin = (d.peerObjects x.1.1).identity

/-- No two peers share a connection. -/
theorem Tidy.single {d : Directory W} (tidy : d.Tidy) (c : ConnId) :
    (d.peers.filter (d.hasConn c)).length ≤ 1 := by
  have nodup := tidy.distinct.filter (d.hasConn c)
  match h : d.peers.filter (d.hasConn c) with
  | [] => simp
  | [_] => simp
  | p :: p' :: rest =>
    have mem (x : PeerId) (hx : x ∈ p :: p' :: rest) : x ∈ d.peers ∧ d.hasConn c x = true :=
      List.mem_filter.mp (h ▸ hx)
    obtain ⟨hp, cp⟩ := mem p (by simp)
    obtain ⟨hp', cp'⟩ := mem p' (by simp)
    have same := tidy.apart p hp p' hp' c cp cp'
    rw [h] at nodup
    simp [same] at nodup

theorem siblingLanes_conn (setup : Setup W) (dial : ConnId → Status)
    (others : List (ProviderId × Bytes)) (c : Nat) {l : Lane W}
    (hl : l ∈ siblingLanes setup dial others c) {k : Nat} (conn : l.conn = some k) :
    c ≤ k ∧ k < c + others.length := by
  induction others generalizing c with
  | nil => cases hl
  | cons offer rest ih =>
    have later (hl : l ∈ siblingLanes setup dial rest (c + 1)) :
        c ≤ k ∧ k < c + (rest.length + 1) := by
      have := ih (c + 1) hl
      omega
    simp only [siblingLanes] at hl
    split at hl
    · rcases List.mem_cons.mp hl with rfl | hl
      · cases conn
        simp
      · exact later hl
    · exact later hl

theorem find_insertRemote (key key' : PeerId × RegionId) (obj : RemoteId)
    (l : List ((PeerId × RegionId) × RemoteId)) :
    (insertRemote key obj l).find? (·.1 == key') =
      if key' = key then some (key, obj) else l.find? (·.1 == key') := by
  induction l with
  | nil => by_cases h : key' = key <;> simp [insertRemote, h, Ne.symm]
  | cons y rest ih =>
    obtain ⟨k, o⟩ := y
    simp only [insertRemote]
    split
    · rename_i same
      subst same
      by_cases h : key' = k <;> simp [h, Ne.symm]
    · rename_i other
      split
      · by_cases h : key' = key <;> simp [h, Ne.symm]
      · by_cases h : key' = key
        · subst h
          simp [other, ih]
        · by_cases h' : k = key' <;> simp [h, h', ih]

theorem invalidated_eq (generation : Generation) (named : List RemoteId) (d : Directory W) :
    d.invalidated generation named =
      { d with remoteObjects := fun o =>
          if o ∈ named ∧ (d.remoteObjects o).desc.generation = generation then
            { d.remoteObjects o with valid := false }
          else d.remoteObjects o } := by
  induction named generalizing d with
  | nil => simp [invalidated]
  | cons obj rest ih =>
    have step : d.invalidated generation (obj :: rest) =
        (if (d.remoteObjects obj).desc.generation = generation then d.invalidate obj
          else d).invalidated generation rest := rfl
    rw [step, ih]
    split
    · rename_i same
      congr 1
      funext o
      by_cases mine : o = obj
      · subst mine
        simp [invalidate, same]
      · simp [invalidate, mine]
    · rename_i other
      congr 1
      funext o
      by_cases mine : o = obj
      · subst mine
        simp [other]
      · simp [mine]

theorem importable_ok {caps : ProviderId → ProviderCaps} {p : Peer W} {d d' : RegionDescriptor}
    (h : importable caps p d = .ok d') :
    (p.identity ≠ .zero → d.origin = p.identity) ∧ d' = { d with remoteKey := d'.remoteKey } ∧
      (d.providerKeys = [] → d' = d) := by
  unfold importable at h
  split at h; · cases h
  rename_i known
  refine ⟨fun named => by_contra fun other => known ⟨named, other⟩, ?_⟩
  split at h
  · cases h
    exact ⟨rfl, fun _ => rfl⟩
  rename_i keyed
  refine ⟨?_, fun none => absurd (by simpa using none) keyed⟩
  dsimp only at h
  split at h
  · split at h <;> cases h <;> rfl
  · cases h

variable (setup : Setup W) (dial : ConnId → Status) {d : Directory W}

variable {peer : PeerId}

theorem accepts_ok {b : Bytes} {desc : RegionDescriptor} (h : d.accepts setup peer b = some desc) :
    ∃ raw, decodeDescriptor b = .ok raw ∧
      importable setup.caps (d.peerObjects peer) raw = .ok desc := by
  unfold accepts at h
  split at h
  · cases h
  rename_i raw decoded
  refine ⟨raw, decoded, ?_⟩
  cases kept : importable setup.caps (d.peerObjects peer) raw with
  | error => simp [kept, Except.toOption] at h
  | ok => simpa [kept, Except.toOption] using h

/-- What a dial of a new peer leaves of the tables, if it is answered or not. -/
theorem metPeer_cases (metadata : Bytes) :
    (∃ n, d.metPeer setup dial metadata = { d with nextConn := d.nextConn + n }) ∨
    ∃ n p, d.metPeer setup dial metadata =
        { d with nextConn := d.nextConn + n, nextPeer := d.nextPeer + 1 }.addPeer d.nextPeer p ∧
      ∀ l ∈ p.lanes, ∀ c, l.conn = some c → d.nextConn ≤ c ∧ c < d.nextConn + n := by
  unfold metPeer
  split
  · exact .inl ⟨0, rfl⟩
  split
  · exact .inl ⟨0, rfl⟩
  split
  · rename_i m _ _ chosen _ _ _
    refine .inr ⟨1 + (siblings setup m chosen).length, ⟨m.identity, _⟩,
      by rw [← Nat.add_assoc], ?_⟩
    intro l hl c conn
    rcases List.mem_cons.mp hl with rfl | hl
    · cases conn
      exact ⟨le_rfl, by simp⟩
    · have := siblingLanes_conn setup dial _ _ hl conn
      exact ⟨Nat.le_of_succ_le this.1, by simpa [Nat.add_assoc] using this.2⟩
  · exact .inl ⟨1, rfl⟩

theorem Tidy.metPeer (tidy : d.Tidy) (metadata : Bytes) : (d.metPeer setup dial metadata).Tidy := by
  rcases d.metPeer_cases setup dial metadata with ⟨n, same⟩ | ⟨n, p, same, fresh⟩ <;> rw [same]
  · exact { tidy with
      dialled := fun p hp c conn => Nat.lt_add_right n (tidy.dialled p hp c conn)
      indexed := tidy.indexed.same rfl rfl }
  · have old {p' : PeerId} (hp : p' ∈ d.peers) : p' ≠ d.nextPeer := (tidy.numbers p' hp).2.ne
    have kept {p' : PeerId} (hp : p' ∈ d.peers) :
        Function.update d.peerObjects d.nextPeer p p' = d.peerObjects p' :=
      Function.update_of_ne (old hp) _ _
    have conn {p' : PeerId} {c : ConnId} (hp : p' ∈ d.peers ++ [d.nextPeer])
        (has : (Function.update d.peerObjects d.nextPeer p p').lanes.any
          (·.conn == some c) = true) :
        p' ∈ d.peers ∧ d.hasConn c p' = true ∧ c < d.nextConn ∨
          p' = d.nextPeer ∧ d.nextConn ≤ c ∧ c < d.nextConn + n := by
      rcases List.mem_append.mp hp with hp | new
      · rw [kept hp] at has
        exact .inl ⟨hp, has, tidy.dialled p' hp c has⟩
      · obtain rfl := List.mem_singleton.mp new
        rw [Function.update_self] at has
        obtain ⟨l, hl, conn⟩ := List.any_eq_true.mp has
        exact .inr ⟨rfl, fresh l hl c (by simpa using conn)⟩
    refine ⟨Nat.succ_pos _, ?_, fun p' hp => ?_, fun p' hp c has => ?_,
      fun p₁ hp₁ p₂ hp₂ c has₁ has₂ => ?_, tidy.indexed.same rfl rfl, fun x hx => ?_,
      fun x hx identified => ?_⟩
    · exact tidy.distinct.append (List.nodup_singleton _)
        (by simpa using fun hp => (old hp) rfl)
    · rcases List.mem_append.mp hp with hp | new
      · exact ⟨(tidy.numbers p' hp).1, Nat.lt_succ_of_lt (tidy.numbers p' hp).2⟩
      · obtain rfl := List.mem_singleton.mp new
        exact ⟨tidy.counted, Nat.lt_succ_self _⟩
    · rcases conn hp has with ⟨-, -, before⟩ | ⟨-, -, now⟩
      · exact Nat.lt_add_right n before
      · exact now
    · rcases conn hp₁ has₁ with ⟨h₁, c₁, before⟩ | ⟨rfl, now, -⟩ <;>
        rcases conn hp₂ has₂ with ⟨h₂, c₂, before'⟩ | ⟨rfl, now', -⟩
      · exact tidy.apart p₁ h₁ p₂ h₂ c c₁ c₂
      · exact absurd before (not_lt.mpr now')
      · exact absurd before' (not_lt.mpr now)
      · rfl
    · exact List.mem_append_left _ (tidy.into x hx)
    · have same := kept (tidy.into x hx)
      change (Function.update d.peerObjects d.nextPeer p x.1.1).identity ≠ .zero at identified
      change _ = (Function.update d.peerObjects d.nextPeer p x.1.1).identity
      rw [same] at identified ⊢
      exact tidy.origin x hx identified

theorem Tidy.imported (tidy : d.Tidy) (known : peer ∈ d.peers) (b : Bytes) :
    (d.imported setup peer b).Tidy := by
  unfold Directory.imported
  split
  · rename_i desc kept
    obtain ⟨raw, -, importable⟩ := d.accepts_ok setup kept
    obtain ⟨mine, same, -⟩ := importable_ok importable
    refine { tidy with
      indexed := tidy.indexed.step (.imported peer desc rfl)
      into := fun x hx => ?_
      origin := fun x hx identified => ?_ }
    · rcases mem_insertRemote hx with rfl | hx
      · exact known
      · exact tidy.into x hx
    · rcases mem_insertRemote hx with rfl | hx
      · simp only [importRegion, Function.update_self]
        rw [same]
        exact mine identified
      · simp only [importRegion, Function.update_of_ne (tidy.indexed.objects x hx).ne]
        exact tidy.origin x hx identified
  · exact tidy

theorem Tidy.invalidated (tidy : d.Tidy) (generation : Generation) (named : List RemoteId) :
    (d.invalidated generation named).Tidy := by
  rw [invalidated_eq]
  refine { tidy with
    indexed := tidy.indexed.same rfl rfl
    origin := fun x hx identified => ?_ }
  rw [← tidy.origin x hx identified]
  dsimp only
  split <;> rfl

theorem Tidy.after (tidy : d.Tidy) {i : Input} (valid : i.Valid d) :
    (d.after setup dial i).Tidy := by
  cases i with
  | addPeer m => exact tidy.metPeer setup dial m
  | importRegion p b => exact tidy.imported setup valid b
  | notice _ conn payload =>
    change (d.noticed conn payload).Tidy
    unfold noticed
    split
    · exact tidy
    · exact tidy.invalidated _ _
  | submit => exact tidy

/-! ## What one peer's regions look like -/

/-- The object a peer's region is found under. -/
def seen (d : Directory W) (peer : PeerId) (region : RegionId) : Option RemoteRegion :=
  (d.remotes.find? (·.1 == (peer, region))).map fun x => d.remoteObjects x.2

theorem seen_metPeer (metadata : Bytes) (peer : PeerId) (region : RegionId) :
    (d.metPeer setup dial metadata).seen peer region = d.seen peer region := by
  rcases d.metPeer_cases setup dial metadata with ⟨n, same⟩ | ⟨n, p, same, -⟩ <;> rw [same] <;> rfl

variable {region : RegionId}

theorem seen_importRegion (tidy : d.Tidy) (peer peer' : PeerId) (desc : RegionDescriptor)
    (region : RegionId) :
    (d.importRegion peer desc).2.seen peer' region =
      if (peer', region) = (peer, desc.region) then some ⟨desc, true⟩
      else d.seen peer' region := by
  unfold seen importRegion
  dsimp only
  rw [find_insertRemote]
  split
  · simp
  · cases found : d.remotes.find? (·.1 == (peer', region)) with
    | none => rfl
    | some x =>
      have old : x.2 ≠ d.nextRemote :=
        (tidy.indexed.objects x (tidy.indexed.find_iff.mp found).1).ne
      simp [Function.update_of_ne old]

theorem seen_noticed (tidy : d.Tidy) (conn : Option ConnId) {payload : Bytes}
    {b : RegionInvalidateBody} (decoded : decodeRegionInvalidate payload = .ok b) (peer : PeerId)
    (region : RegionId) :
    (d.noticed conn payload).seen peer region = (d.seen peer region).map fun object =>
      if b.Names (d.peerOf conn) (peer, region) object.desc then { object with valid := false }
      else object := by
  unfold noticed
  simp only [decoded]
  rw [invalidated_eq]
  unfold seen
  dsimp only
  cases found : d.remotes.find? (·.1 == (peer, region)) with
  | none => rfl
  | some x =>
    obtain ⟨listed, key⟩ := tidy.indexed.find_iff.mp found
    simp only [Option.map_some, mem_named tidy.indexed listed, About, key]

theorem noticed_error (conn : Option ConnId) {payload : Bytes} {e : Status}
    (garbled : decodeRegionInvalidate payload = .error e) : d.noticed conn payload = d := by
  unfold noticed
  simp only [garbled]

theorem seen_known (tidy : d.Tidy) {object : RemoteRegion}
    (found : d.seen peer region = some object) :
    peer ∈ d.peers ∧ ((d.peerObjects peer).identity ≠ .zero →
      object.desc.origin = (d.peerObjects peer).identity) := by
  obtain ⟨x, hx, rfl⟩ := Option.map_eq_some_iff.mp found
  obtain ⟨mem, key⟩ := tidy.indexed.find_iff.mp hx
  have known := tidy.into x mem
  have origin := tidy.origin x mem
  rw [key] at known origin
  exact ⟨known, origin⟩

/-! ## Tables that are the same to one peer -/

/-- Everything but the imported regions is the same, and so is every region of
the peer. -/
structure Alike (peer : PeerId) (d d' : Directory W) : Prop where
  regions : d'.regions = d.regions
  peers : d'.peers = d.peers
  peerObjects : d'.peerObjects = d.peerObjects
  nextPeer : d'.nextPeer = d.nextPeer
  nextConn : d'.nextConn = d.nextConn
  seen : ∀ region, d'.seen peer region = d.seen peer region

theorem Alike.refl (peer : PeerId) (d : Directory W) : Alike peer d d :=
  ⟨rfl, rfl, rfl, rfl, rfl, fun _ => rfl⟩

variable {d' : Directory W}

theorem Alike.trans {d d'' : Directory W} (h : Alike peer d d') (h' : Alike peer d' d'') :
    Alike peer d d'' where
  regions := h'.regions.trans h.regions
  peers := h'.peers.trans h.peers
  peerObjects := h'.peerObjects.trans h.peerObjects
  nextPeer := h'.nextPeer.trans h.nextPeer
  nextConn := h'.nextConn.trans h.nextConn
  seen region := (h'.seen region).trans (h.seen region)

theorem Alike.peerOf {d : Directory W} (alike : Alike peer d d') (conn : Option ConnId) :
    d'.peerOf conn = d.peerOf conn := by
  unfold Directory.peerOf Directory.hasConn
  rw [alike.peers, alike.peerObjects]

theorem Alike.metPeer (alike : Alike peer d d') (metadata : Bytes) :
    Alike peer (d.metPeer setup dial metadata) (d'.metPeer setup dial metadata) := by
  unfold Directory.metPeer
  cases readMetadata setup.identity metadata with
  | error => exact alike
  | ok m =>
    dsimp only
    cases chooseProvider setup m with
    | none => exact alike
    | some choice =>
      dsimp only
      rw [alike.nextConn, alike.nextPeer]
      split
      · exact {
          regions := alike.regions
          peers := by simp [Directory.addPeer, alike.peers]
          peerObjects := by simp [Directory.addPeer, alike.peerObjects]
          nextPeer := rfl
          nextConn := rfl
          seen := alike.seen }
      · exact { alike with nextPeer := rfl, nextConn := rfl, seen := alike.seen }

theorem Alike.imported (alike : Alike peer d d') (tidy : d.Tidy) (tidy' : d'.Tidy) (into : PeerId)
    (b : Bytes) : Alike peer (d.imported setup into b) (d'.imported setup into b) := by
  have same : d'.accepts setup into b = d.accepts setup into b := by
    unfold accepts
    rw [alike.peerObjects]
  unfold Directory.imported
  rw [same]
  split
  · refine { alike with seen := ?_ }
    intro region
    rw [seen_importRegion tidy, seen_importRegion tidy', alike.seen]
  · exact alike

theorem noticed_cases (d : Directory W) (conn : Option ConnId) (payload : Bytes) :
    ∃ f, d.noticed conn payload = { d with remoteObjects := f } := by
  unfold noticed
  split
  · exact ⟨_, rfl⟩
  · exact ⟨_, invalidated_eq _ _ _⟩

theorem Alike.noticed (alike : Alike peer d d') (tidy : d.Tidy) (tidy' : d'.Tidy)
    (conn : Option ConnId) (payload : Bytes) :
    Alike peer (d.noticed conn payload) (d'.noticed conn payload) := by
  cases decoded : decodeRegionInvalidate payload with
  | error e =>
    rw [noticed_error conn decoded, noticed_error conn decoded]
    exact alike
  | ok b =>
    have seen (region : RegionId) : (d'.noticed conn payload).seen peer region =
        (d.noticed conn payload).seen peer region := by
      rw [seen_noticed tidy conn decoded, seen_noticed tidy' conn decoded, alike.seen,
        alike.peerOf]
    obtain ⟨f, left⟩ := d.noticed_cases conn payload
    obtain ⟨f', right⟩ := d'.noticed_cases conn payload
    rw [left, right] at seen ⊢
    exact { alike with seen := seen }

theorem Alike.after (alike : Alike peer d d') (tidy : d.Tidy) (tidy' : d'.Tidy) (i : Input) :
    Alike peer (d.after setup dial i) (d'.after setup dial i) := by
  cases i with
  | addPeer m => exact alike.metPeer setup dial m
  | importRegion p b => exact alike.imported setup tidy tidy' p b
  | notice _ conn payload => exact alike.noticed tidy tidy' conn payload
  | submit => exact alike

/-! ## What a peer can send -/

/-- Peers stay what they were added as. -/
def Extends (d D : Directory W) : Prop :=
  ∀ p ∈ d.peers, p ∈ D.peers ∧ D.peerObjects p = d.peerObjects p

theorem Extends.refl (d : Directory W) : d.Extends d := fun _ hp => ⟨hp, rfl⟩

theorem Extends.trans {d₁ d₂ d₃ : Directory W} (h : d₁.Extends d₂) (h' : d₂.Extends d₃) :
    d₁.Extends d₃ := by
  intro p hp
  obtain ⟨hp₂, same⟩ := h p hp
  obtain ⟨hp₃, same'⟩ := h' p hp₂
  exact ⟨hp₃, same'.trans same⟩

theorem extends_after (tidy : d.Tidy) (i : Input) : d.Extends (d.after setup dial i) := by
  intro p hp
  cases i with
  | addPeer m =>
    rcases d.metPeer_cases setup dial m with ⟨n, same⟩ | ⟨n, new, same, -⟩
    · rw [Directory.after, same]
      exact ⟨hp, rfl⟩
    · have old : p ≠ d.nextPeer := (tidy.numbers p hp).2.ne
      rw [Directory.after, same]
      exact ⟨List.mem_append_left _ hp, Function.update_of_ne old _ _⟩
  | importRegion into b =>
    change p ∈ (d.imported setup into b).peers ∧
      (d.imported setup into b).peerObjects p = d.peerObjects p
    unfold Directory.imported
    split <;> exact ⟨hp, rfl⟩
  | notice _ conn payload =>
    change p ∈ (d.noticed conn payload).peers ∧
      (d.noticed conn payload).peerObjects p = d.peerObjects p
    obtain ⟨f, same⟩ := d.noticed_cases conn payload
    rw [same]
    exact ⟨hp, rfl⟩
  | submit => exact ⟨hp, rfl⟩

end Directory

/-- What is about one peer: an import into it, a notice that names its identity
and a short notice on one of its connections. -/
def Input.isAbout (peer : PeerId) (p : Peer W) : Input → Bool
  | .importRegion into _ => into == peer
  | .notice _ conn payload =>
    match decodeRegionInvalidate payload with
    | .error _ => false
    | .ok b =>
      match b.origin with
      | some origin => origin == p.identity
      | none => p.lanes.any fun l => l.conn.isSome && l.conn == conn
  | _ => false

namespace Directory
variable (setup : Setup W) (dial : ConnId → Status) {d : Directory W}

variable {peer : PeerId}

theorem mem_peerOf {c : ConnId} (known : peer ≠ 0) (found : d.peerOf (some c) = peer) :
    d.hasConn c peer = true := by
  change (d.peers.filter (d.hasConn c)).headD 0 = peer at found
  have mem : peer ∈ d.peers.filter (d.hasConn c) := by
    cases h : d.peers.filter (d.hasConn c) with
    | nil =>
      rw [h] at found
      exact absurd found.symm known
    | cons p rest =>
      rw [h] at found
      exact found ▸ List.mem_cons_self
  exact (List.mem_filter.mp mem).2

/-- Another peer, with an identity of its own. -/
structure Strangers (D : Directory W) (peer other : PeerId) : Prop where
  tidy : D.Tidy
  known : other ∈ D.peers
  identified : (D.peerObjects peer).identity ≠ .zero
  different : (D.peerObjects peer).identity ≠ (D.peerObjects other).identity

variable {D : Directory W} {other : PeerId}

theorem Strangers.ne (strangers : D.Strangers peer other) : peer ≠ other :=
  fun same => strangers.different (by rw [same])

/-- A notice about another peer leaves a peer's regions alone. -/
theorem not_names_of_isAbout (tidy : d.Tidy) (grown : d.Extends D)
    (strangers : D.Strangers peer other) {prov : ProviderId} {conn : Option ConnId}
    {payload : Bytes} {b : RegionInvalidateBody} (decoded : decodeRegionInvalidate payload = .ok b)
    (about : (Input.notice prov conn payload).isAbout other (D.peerObjects other) = true)
    {region : RegionId} {object : RemoteRegion} (found : d.seen peer region = some object) :
    ¬b.Names (d.peerOf conn) (peer, region) object.desc := by
  intro h
  obtain ⟨known, origin⟩ := seen_known tidy found
  obtain ⟨hpeer, same⟩ := grown peer known
  have identified := same ▸ strangers.identified
  have different := same ▸ strangers.different
  simp only [Input.isAbout, decoded] at about
  obtain ⟨-, -, which⟩ := h
  cases named : b.origin with
  | some o =>
    simp only [named, beq_iff_eq] at about which
    rw [origin identified, about] at which
    exact different which
  | none =>
    simp only [named] at about which
    obtain ⟨l, hl, on⟩ := List.any_eq_true.mp about
    simp only [Bool.and_eq_true, beq_iff_eq, Option.isSome_iff_exists] at on
    obtain ⟨⟨c, dialled⟩, arrived⟩ := on
    rw [← arrived, dialled] at which
    have mine := mem_peerOf (which.2 ▸ which.1) which.2.symm
    have mineD : D.hasConn c peer = true := by
      unfold hasConn
      rw [same]
      exact mine
    have others : D.hasConn c other = true := List.any_eq_true.mpr ⟨l, hl, by simp [dialled]⟩
    exact strangers.ne (strangers.tidy.apart peer hpeer other strangers.known c mineD others)

theorem alike_of_isAbout (tidy : d.Tidy) (grown : d.Extends D)
    (strangers : D.Strangers peer other) {i : Input}
    (about : i.isAbout other (D.peerObjects other) = true) :
    Alike peer (d.after setup dial i) d := by
  cases i with
  | addPeer | submit => cases about
  | importRegion p b =>
    obtain rfl : p = other := by simpa [Input.isAbout] using about
    change Alike peer (d.imported setup p b) d
    unfold imported
    split
    · refine { Alike.refl peer d with seen := ?_ }
      intro region
      rw [seen_importRegion tidy, if_neg]
      simp [strangers.ne]
    · exact .refl peer d
  | notice prov conn payload =>
    change Alike peer (d.noticed conn payload) d
    cases decoded : decodeRegionInvalidate payload with
    | error e =>
      rw [noticed_error conn decoded]
      exact .refl peer d
    | ok b =>
      have seen (region : RegionId) :
          d.seen peer region = (d.noticed conn payload).seen peer region := by
        rw [seen_noticed tidy conn decoded]
        cases found : d.seen peer region with
        | none => rfl
        | some object =>
          have not := not_names_of_isAbout tidy grown strangers decoded about found
          rw [Option.map_some, if_neg not]
      obtain ⟨f, same⟩ := d.noticed_cases conn payload
      rw [same] at seen ⊢
      exact { Alike.refl peer d with seen := seen }

end Directory

/-! ## Histories -/

variable {T : Transport} {setup : Setup W} {dial : ConnId → Status}

/-- An engine that knows no peer yet. -/
structure Directory.New (d : Directory W) : Prop where
  counted : 0 < d.nextPeer
  peers : d.peers = []
  remotes : d.remotes = []

theorem Directory.New.tidy {d : Directory W} (new : d.New) : d.Tidy where
  counted := new.counted
  distinct := by simp [new.peers]
  numbers := by simp [new.peers]
  dialled := by simp [new.peers]
  apart := by simp [new.peers]
  indexed := ⟨by simp [new.remotes], by simp [new.remotes], by simp [new.remotes]⟩
  into := by simp [new.remotes]
  origin := by simp [new.remotes]

variable {peer : PeerId} {s' : World T W}

theorem Directory.Alike.lookup {s : World T W} (alike : Directory.Alike peer s.dir s'.dir)
    (retired : s'.ledger.retired = s.ledger.retired) : s.lookup.Agree peer s'.lookup where
  findRegion := by
    funext id
    change s'.dir.regions.find? _ = s.dir.regions.find? _
    rw [alike.regions]
  retired := retired
  found region := by
    have same := congrArg (Option.map fun o : RemoteRegion => (o.desc, o.valid)) (alike.seen region)
    unfold Directory.seen at same
    simp only [Option.map_map] at same
    change ((s'.dir.remotes.find? _).map _).map _ = ((s.dir.remotes.find? _).map _).map _
    simp only [Option.map_map]
    exact same

variable [LaneCost W] {s₀ s : World T W} {h : List (Input × Reply)}

theorem History.tidy (dials : Dials T dial) (new : s₀.dir.New) (run : History setup s₀ h s) :
    s.dir.Tidy := by
  induction run with
  | start => exact new.tidy
  | next t _ valid step ih =>
    have dir := congrArg Prod.fst (alone_input setup dials ih.single step)
    change _ = Directory.after setup dial _ _ at dir
    change Directory.Tidy (World.tables _).1
    rw [dir]
    exact ih.after setup dial valid

theorem History.extends_next (dials : Dials T dial) (new : s₀.dir.New) {i : Input} {r : Reply}
    {t : Tid} (run : History setup s₀ h s) (step : Alone t (i.body setup) s r s') :
    s'.dir = s.dir.after setup dial i ∧ s'.ledger.retired = s.ledger.retired ∧
      s.dir.Extends s'.dir := by
  have tidy := run.tidy dials new
  obtain ⟨dir, retired⟩ := Prod.mk.inj (alone_input setup dials tidy.single step)
  exact ⟨dir, retired, dir ▸ Directory.extends_after setup dial tidy i⟩

/-- Leaving out what is about another peer leaves the tables the same to a peer. -/
theorem History.alike (dials : Dials T dial) (new : s₀.dir.New) {h' : List (Input × Reply)}
    {D : Directory W} {other : PeerId} (strangers : D.Strangers peer other)
    (run : History setup s₀ h s) (grown : s.dir.Extends D) (run' : History setup s₀ h' s')
    (less : h'.map (·.1) = (h.map (·.1)).filter fun i => !i.isAbout other (D.peerObjects other)) :
    Directory.Alike peer s.dir s'.dir ∧ s'.ledger.retired = s.ledger.retired := by
  induction run generalizing h' s' with
  | start =>
    obtain rfl : h' = [] := by simpa using less
    cases run'
    exact ⟨.refl _ _, rfl⟩
  | next t before valid step ih =>
    rename_i s₁ s₂ i r
    obtain ⟨dir, retired, more⟩ := before.extends_next dials new step
    have tidy := before.tidy dials new
    by_cases about : i.isAbout other (D.peerObjects other) = true
    · have rest := ih (more.trans grown) run' (by simpa [about] using less)
      have same := Directory.alike_of_isAbout setup dial tidy (more.trans grown) strangers about
      rw [dir, retired]
      exact ⟨same.trans rest.1, rest.2⟩
    · cases run' with
      | start => simp [about] at less
      | next t' before' valid' step' =>
        simp only [List.map_cons, List.filter_cons, about, Bool.not_false, if_true,
          List.cons.injEq] at less
        obtain ⟨rfl, less⟩ := less
        obtain ⟨dir', retired', -⟩ := before'.extends_next dials new step'
        obtain ⟨alike, same⟩ := ih (more.trans grown) before' less
        rw [dir, dir', retired, retired']
        exact ⟨alike.after setup dial tidy (before'.tidy dials new) _, same⟩

/-! ## What `build_subops` makes of the tables -/

variable {look : Lookup Id}

/-- An operation that stays within a region as its descriptor has it, with the
key for one transport. -/
structure Drawn (kind : SubOpKind) (desc : RegionDescriptor) (span : Span) (name : Bytes)
    (op : SubOp) : Prop where
  access : hasFlag desc.access (neededAccess kind) = true
  bound : span.offset + span.length ≤ desc.length
  addr : ∃ off, off + op.length ≤ span.length ∧
    op.remoteAddr = u64 (desc.base + span.offset + off)
  key : desc.remoteKeyFor name = some op.remoteKey

variable {k : Nat} {op : SubOp}

theorem buildLoop_drawn {g : Plan W} {loc remote : List RegionView} {b b' : Build W}
    (run : (buildLoop look g peer loc remote b).run = .ok b') (mem : op ∈ b'.onLane k) :
    op ∈ b.onLane k ∨ ∃ view ∈ remote, ∃ ptr desc,
      look.findRemote peer view.region = some (ptr, desc) ∧
      Drawn g.kind desc view.span (g.laneName k) op := by
  refine buildLoop_rule (I := fun b' => op ∈ b'.onLane k → op ∈ b.onLane k ∨ _) run .inl
    (fun _ _ _ same => same) ?_ mem
  intro x hx lr ptr desc _ imported passed b₁ op' piece before now
  rcases mem_onLane_modify now with old | ⟨rfl, rfl⟩
  · exact before old
  · obtain ⟨access, same, -, inRemote⟩ := checkSegment_ok passed
    obtain ⟨off, fits, addr⟩ := piece.inside
    exact .inr ⟨x.2, (List.of_mem_zip hx).2, ptr, desc, imported, access, inRemote,
      ⟨off, same ▸ fits, addr⟩, piece.remoteKey⟩

theorem buildSubops_drawn {caps : ProviderId → ProviderCaps} {chunkBytes : Nat}
    {loc remote : List RegionView} {kind : SubOpKind} {req : RequestId} {lanes : List (Lane W)}
    {built : Built}
    (run : (buildSubops look caps chunkBytes peer loc remote kind req lanes).run = .ok built)
    (mem : op ∈ built.perLane.getD k []) :
    ∃ l, lanes[k]? = some l ∧ ∃ view ∈ remote, ∃ ptr desc,
      look.findRemote peer view.region = some (ptr, desc) ∧
      Drawn kind desc view.span (caps l.provider).name op := by
  obtain ⟨-, b, perLane, loop⟩ := buildSubops_ok run
  rw [perLane] at mem
  obtain ⟨lane, at_k, name⟩ := lane_of_mem loop mem
  refine ⟨lane, at_k, ?_⟩
  rcases buildLoop_drawn loop mem with none | some
  · simp [Build.start_onLane] at none
  · rw [name] at some
    exact some

/-! ## Where a region comes from -/

/-- The descriptor a call brought in for a peer's region. -/
def broughtIn (peer : PeerId) (region : RegionId) : Input × Reply → Option RegionDescriptor
  | (.importRegion into descriptor, .remote .ok (some _)) =>
    if into = peer then
      (decodeDescriptor descriptor).toOption.filter (·.region == region)
    else none
  | _ => none

/-- The last descriptor successfully imported into a peer with a region id. -/
def lastImport (peer : PeerId) (region : RegionId) (h : List (Input × Reply)) :
    Option RegionDescriptor :=
  h.findSome? (broughtIn peer region)

/-- An imported region is its last descriptor, but for which key is the unnamed
one where the transports' keys are named. -/
structure RemoteRegion.Stems (object : RemoteRegion) (desc : RegionDescriptor) : Prop where
  same : object.desc = { desc with remoteKey := object.desc.remoteKey }
  unnamed : desc.providerKeys = [] → object.desc = desc

theorem RemoteRegion.Stems.drawn {object : RemoteRegion} {desc : RegionDescriptor}
    {kind : SubOpKind} {span : Span} {name : Bytes} (stems : object.Stems desc)
    (drawn : Drawn kind object.desc span name op) : Drawn kind desc span name op := by
  by_cases unnamed : desc.providerKeys = []
  · rw [stems.unnamed unnamed] at drawn
    exact drawn
  · have same := stems.same
    generalize object.desc.remoteKey = key at same
    rw [same] at drawn
    refine ⟨drawn.access, drawn.bound, drawn.addr, ?_⟩
    have key := drawn.key
    unfold RegionDescriptor.remoteKeyFor at key ⊢
    simpa [unnamed] using key

theorem History.stems (dials : Dials T dial) (new : s₀.dir.New) (run : History setup s₀ h s)
    {region : RegionId} {object : RemoteRegion} (found : s.dir.seen peer region = some object) :
    ∃ desc, lastImport peer region h = some desc ∧ object.Stems desc := by
  induction run generalizing object with
  | start => simp [Directory.seen, new.remotes] at found
  | next t before valid step ih =>
    rename_i s₁ s₂ i r
    obtain ⟨dir, -, -⟩ := before.extends_next dials new step
    have tidy := before.tidy dials new
    rw [dir] at found
    unfold lastImport
    rw [List.findSome?_cons]
    cases i with
    | addPeer m =>
      rw [Directory.after, Directory.seen_metPeer] at found
      exact ih found
    | submit => exact ih found
    | notice prov conn payload =>
      change (s₁.dir.noticed conn payload).seen peer region = some object at found
      cases decoded : decodeRegionInvalidate payload with
      | error e =>
        rw [Directory.noticed_error conn decoded] at found
        exact ih found
      | ok b =>
        rw [Directory.seen_noticed tidy conn decoded] at found
        obtain ⟨object', found', rfl⟩ := Option.map_eq_some_iff.mp found
        obtain ⟨desc, last, stems⟩ := ih found'
        refine ⟨desc, last, ?_⟩
        split
        · exact ⟨stems.same, stems.unnamed⟩
        · exact stems
    | importRegion into b =>
      obtain ⟨-, succeeds⟩ := alone_importRegion setup step
      change (s₁.dir.imported setup into b).seen peer region = some object at found
      unfold Directory.imported at found
      cases accepted : s₁.dir.accepts setup into b with
      | none =>
        simp only [accepted] at found succeeds
        have refused : broughtIn peer region (.importRegion into b, r) = none := by
          unfold broughtIn
          split
          · rename_i obj same
            obtain ⟨-, rfl⟩ := Prod.mk.inj same
            simpa using succeeds.mp ⟨_, rfl⟩
          · rfl
        rw [refused]
        exact ih found
      | some kept =>
        simp only [accepted] at found succeeds
        obtain ⟨obj, rfl⟩ := succeeds.mpr rfl
        obtain ⟨raw, decoded, importable⟩ := Directory.accepts_ok setup accepted
        obtain ⟨-, same, unnamed⟩ := Directory.importable_ok importable
        have regions : kept.region = raw.region := by rw [same]
        rw [Directory.seen_importRegion tidy, regions] at found
        split at found
        · rename_i here
          obtain ⟨rfl, rfl⟩ := Prod.mk.inj here
          cases found
          refine ⟨raw, ?_, same, unnamed⟩
          simp [broughtIn, decoded, Except.toOption, Option.filter]
        · rename_i elsewhere
          have other :
              broughtIn peer region (.importRegion into b, .remote .ok (some obj)) = none := by
            unfold broughtIn
            simp only [decoded, Except.toOption]
            split
            · rename_i into_eq
              simp only [Option.filter_some]
              rw [if_neg]
              intro region_eq
              exact elsewhere (by simp [into_eq, beq_iff_eq.mp region_eq])
            · rfl
          rw [other]
          exact ih found

/-- Every operation `build_subops` makes for a peer stays within the last
descriptor imported into that peer, which carries its identity; and what
another peer sent makes no difference to the result, if the dials of the two
histories go alike. -/
theorem peers_are_isolated (dials : Dials T dial) {s' : World T W} {h' : List (Input × Reply)}
    {P Q : PeerId} (new : s₀.dir.New) (run : History setup s₀ h s)
    (run' : History setup s₀ h' s')
    (less : h'.map (·.1) =
      (h.map (·.1)).filter fun i => !i.isAbout Q (s.dir.peerObjects Q))
    (hQ : Q ∈ s.dir.peers) (identified : (s.dir.peerObjects P).identity ≠ .zero)
    (different : (s.dir.peerObjects P).identity ≠ (s.dir.peerObjects Q).identity)
    (loc remote : List RegionView) (kind : SubOpKind) (req : RequestId) {t t' : Tid}
    {r r' : Except Status Built} {s₁ s₁' : World T W}
    (built : Alone t (buildSubops lookup setup.caps setup.cfg.chunkBytes P loc remote kind req
      (s.dir.peerObjects P).lanes) s r s₁)
    (built' : Alone t' (buildSubops lookup setup.caps setup.cfg.chunkBytes P loc remote kind req
      (s'.dir.peerObjects P).lanes) s' r' s₁') :
    r' = r ∧
    ∀ b, r = .ok b → ∀ k, ∀ op ∈ b.perLane.getD k [],
      ∃ lane, (s.dir.peerObjects P).lanes[k]? = some lane ∧
      ∃ view ∈ remote, ∃ desc, lastImport P view.region h = some desc ∧
        desc.origin = (s.dir.peerObjects P).identity ∧
        Drawn kind desc view.span (setup.caps lane.provider).name op := by
  have tidy := run.tidy dials new
  obtain ⟨alike, retired⟩ := run.alike dials new ⟨tidy, hQ, identified, different⟩
    (Directory.Extends.refl _) run' less
  obtain ⟨result, -⟩ := (alone_buildSubops ⟨rfl, rfl, fun _ => rfl⟩).mp built
  rw [alike.peerObjects] at built'
  obtain ⟨result', -⟩ := (alone_buildSubops (alike.lookup retired)).mp built'
  refine ⟨result'.trans result.symm, ?_⟩
  intro b ok k op hop
  obtain ⟨lane, hlane, view, hview, ptr, kept, found, drawn⟩ :=
    buildSubops_drawn (result.symm.trans ok) hop
  refine ⟨lane, hlane, view, hview, ?_⟩
  obtain ⟨x, hx, eq⟩ := Option.map_eq_some_iff.mp
    (show (s.dir.remotes.find? (·.1 == (P, view.region))).map _ = some (ptr, kept) from found)
  obtain ⟨rfl, rfl⟩ := Prod.mk.inj eq
  have seen : s.dir.seen P view.region = some (s.dir.remoteObjects x.2) := by
    unfold Directory.seen
    rw [hx]
    rfl
  obtain ⟨desc, last, stems⟩ := run.stems dials new seen
  have origin := (Directory.seen_known tidy seen).2 identified
  rw [stems.same] at origin
  exact ⟨desc, last, origin, stems.drawn drawn⟩

instance (d : Directory W) (i : Input) : Decidable (i.Valid d) := by
  cases i <;> unfold Input.Valid <;> infer_instance

/-- The history in which every step gets the first answer that enables it,
oldest input first. -/
def Input.replay (setup : Setup W) (answers : List (Answer T)) :
    List Input → List (Input × Reply) → World T W → Option (List (Input × Reply) × World T W)
  | [], h, s => some (h, s)
  | i :: rest, h, s =>
    if i.Valid s.dir then
      match (i.body setup).perform answers 0 s with
      | some (r, s') => Input.replay setup answers rest ((i, r) :: h) s'
      | none => none
    else none

theorem History.replay {answers : List (Answer T)} {inputs : List Input}
    {h' : List (Input × Reply)} (run : History setup s₀ h s)
    (replayed : Input.replay setup answers inputs h s = some (h', s')) :
    History setup s₀ h' s' := by
  induction inputs generalizing h s with
  | nil =>
    cases replayed
    exact run
  | cons i rest ih =>
    simp only [Input.replay] at replayed
    split at replayed
    · rename_i valid
      split at replayed
      · rename_i r s₁ performed
        exact ih (.next 0 run valid (Interleave.Prog.perform_alone performed)) replayed
      · cases replayed
    · cases replayed

end

namespace Pair

/-- Metadata of a peer that offers nothing but its identity. -/
def metadataOf (id : Identity) : Bytes :=
  encodeIdentity id ++ Wire.putLE 4 kMetadataMagic ++ Wire.putLE 2 kMetadataMajor ++
    Wire.putLE 2 kMetadataMinor ++ Wire.putLE 2 0

/-- Before any peer was added. -/
def unmet : World transport ℚ :=
  .start { directory with
    peers := [], remotes := [], nextPeer := 1, nextRemote := 0, nextConn := 0 }
    state

/-- A third party's region, under the same number. -/
def elsewhere : RegionDescriptor := { there with origin := ⟨1, 1, 3⟩, base := 16384 }

def inputs : List Input :=
  [.addPeer (metadataOf ⟨1, 1, 2⟩), .addPeer (metadataOf ⟨1, 1, 3⟩),
    .importRegion 1 (encodeDescriptor there), .importRegion 2 (encodeDescriptor elsewhere),
    .notice 0 (some 1) (encodeRegionInvalidate ⟨1, 1, some ⟨1, 1, 3⟩⟩),
    .notice 0 (some 1) (encodeRegionInvalidate ⟨1, 1, none⟩)]

def replay (inputs : List Input) : Option (List (Input × Reply) × World transport ℚ) :=
  Input.replay setup [.nothing, .transport LocalAct.nothing, .order [], .order [1], .order [2]]
    inputs [] unmet

/-- `build_subops` for the first peer's region. -/
def buildFirst (s : World transport ℚ) : Engine transport ℚ (Except Status Built) :=
  buildSubops lookup setup.caps setup.cfg.chunkBytes 1 [⟨1, ⟨0, 8⟩⟩] [⟨1, ⟨0, 8⟩⟩] .write 1
    (s.dir.peerObjects 1).lanes

theorem dials : Dials transport fun _ => .ok := by
  intro prov c blob σ a r σ' h
  cases h
  rfl

/-- What a replay and `build_subops` after it show. -/
theorem history_of_replay (inputs : List Input)
    (P : List (Input × Reply) → World transport ℚ → Except Status Built → Prop)
    [∀ h s r, Decidable (P h s r)]
    (shown : ((replay inputs).any fun x =>
      ((buildFirst x.2).perform [.nothing] 0 x.2).any fun y => decide (P x.1 x.2 y.1)) = true) :
    ∃ h s r s₁, History setup unmet h s ∧ Alone 0 (buildFirst s) s r s₁ ∧ P h s r := by
  cases replayed : replay inputs with
  | none => simp [replayed] at shown
  | some x =>
    cases performed : (buildFirst x.2).perform [.nothing] 0 x.2 with
    | none => simp [replayed, performed] at shown
    | some y =>
      simp only [replayed, performed, Option.any_some, decide_eq_true_eq] at shown
      exact ⟨x.1, x.2, y.1, y.2, History.replay .start replayed,
        Interleave.Prog.perform_alone performed, shown⟩

/-- With a second peer's import and notices about its region, and without. -/
theorem peers_are_isolated_third_party :
    ∃ h s h' s' r s₁ r' s₁', History setup unmet h s ∧ History setup unmet h' s' ∧
      h.length = 6 ∧ h'.length = 3 ∧
      Alone 0 (buildFirst s) s r s₁ ∧ Alone 0 (buildFirst s') s' r' s₁' ∧ r' = r ∧
      ∃ b, r = .ok b ∧ (b.perLane.getD 0 []).length = 2 ∧ ∀ op ∈ b.perLane.getD 0 [],
        ∃ (view : RegionView) (desc : RegionDescriptor), lastImport 1 view.region h = some desc ∧
          desc.origin = ⟨1, 1, 2⟩ ∧
          Drawn .write desc view.span nameLocal op := by
  obtain ⟨h, s, r, s₁, run, built, less, count, identity, hQ, different, hr⟩ :=
    history_of_replay inputs
      (fun h s r => (h.map (·.1)).filter (fun i => !i.isAbout 2 (s.dir.peerObjects 2)) =
          (inputs.take 3).reverse ∧ h.length = 6 ∧
        (s.dir.peerObjects 1).identity = ⟨1, 1, 2⟩ ∧ 2 ∈ s.dir.peers ∧
        (s.dir.peerObjects 1).identity ≠ (s.dir.peerObjects 2).identity ∧
        (r.toOption.map fun b => (b.perLane.getD 0 []).length) = some 2)
      (by decide +kernel)
  obtain ⟨h', s', r', s₁', run', built', all, count'⟩ :=
    history_of_replay (inputs.take 3)
      (fun h _ _ => h.map (·.1) = (inputs.take 3).reverse ∧ h.length = 3) (by decide +kernel)
  have isolated := peers_are_isolated dials (P := 1) (Q := 2) ⟨by decide, rfl, rfl⟩ run run'
    (all.trans less.symm) hQ (by rw [identity]; decide) different [⟨1, ⟨0, 8⟩⟩] [⟨1, ⟨0, 8⟩⟩]
      .write 1
    built built'
  refine ⟨h, s, h', s', r, s₁, r', s₁', run, run', count, count', built, built', isolated.1, ?_⟩
  cases r with
  | error => simp [Except.toOption] at hr
  | ok b =>
    refine ⟨b, rfl, by simpa [Except.toOption] using hr, ?_⟩
    intro op hop
    obtain ⟨lane, -, view, -, desc, last, origin, drawn⟩ := isolated.2 b rfl 0 op hop
    exact ⟨view, desc, last, origin.trans identity, drawn⟩

end Pair

end Hux
