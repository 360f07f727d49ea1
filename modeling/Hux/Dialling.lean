import Hux.Envelope
import Hux.Amid

/-!
# How a peer is dialled

A peer is dialled by the steps of one `add_peer`, each from the state it finds to
the state it leaves; the other calls do what they like in between.

* `Reaches`: a provider that suits where the peer is and that the peer offers;
* `Opens`: a step that opens the connection of a lane;
* `Lanes`: what a peer that was added is reached over.
-/

namespace Hux
open Interleave (Tid Ends Took)
open Wire (Bytes)

/-- The first offer of that name. -/
def FirstOffer (offered : List Offer) (name blob : Bytes) : Prop :=
  ∃ before after, offered = before ++ ⟨name, blob⟩ :: after ∧ ∀ o ∈ before, o.name ≠ name

theorem firstOffer_iff {offered : List Offer} {name blob : Bytes} :
    FirstOffer offered name blob ↔ offered.find? (·.name == name) = some ⟨name, blob⟩ := by
  rw [List.find?_eq_some_iff_append]
  simp only [beq_self_eq_true, true_and, Bool.not_eq_true', beq_eq_false_iff_ne]
  exact Iff.rfl

section
variable {W : Type} (setup : Setup W) (m : Metadata)

/-- The provider suits where the peer is, and the first offer of its name is
dialled with `blob`. -/
def Reaches (p : ProviderId) (blob : Bytes) : Prop :=
  p < setup.providers ∧ suits (setup.caps p).name m.locality = true ∧
    FirstOffer m.offered (setup.caps p).name blob

variable {setup m}

theorem map_find?_offer {p p' : ProviderId} {name blob : Bytes} :
    (m.offered.find? (·.name == name)).map (fun o => (p, o.blob)) = some (p', blob) ↔
      p' = p ∧ FirstOffer m.offered name blob := by
  rw [firstOffer_iff, Option.map_eq_some_iff]
  constructor
  · rintro ⟨⟨name', blob'⟩, found, same⟩
    have named : name' = name := by simpa using List.find?_some found
    cases same
    exact ⟨rfl, named ▸ found⟩
  · rintro ⟨rfl, found⟩
    exact ⟨_, found, rfl⟩

/-! ## The choice -/

/-- The provider that is chosen reaches the peer, and none before it does. -/
theorem chooseProvider_some (some : m.offered ≠ []) {p : ProviderId} {blob : Bytes}
    (chosen : chooseProvider setup m = Option.some (p, blob)) :
    Reaches setup m p blob ∧ ∀ p' < p, ∀ blob', ¬Reaches setup m p' blob' := by
  simp only [chooseProvider, List.isEmpty_iff, if_neg some] at chosen
  obtain ⟨before, p', after, order, hit, misses⟩ := List.findSome?_eq_some_iff.mp chosen
  split at hit
  · cases hit
  rename_i suiting
  obtain ⟨rfl, offer⟩ := map_find?_offer.mp hit
  have within : p ∈ List.range setup.providers := by simp [order]
  refine ⟨⟨List.mem_range.mp within, by simpa using suiting, offer⟩, ?_⟩
  rintro p' earlier blob' ⟨-, suiting', offer'⟩
  -- in local order, a provider of a smaller number comes before the chosen one
  have early : p' ∈ before := by
    have sorted := order ▸ List.pairwise_lt_range (n := setup.providers)
    have listed : p' ∈ before ++ p :: after := by
      rw [← order]
      exact List.mem_range.mpr (earlier.trans (List.mem_range.mp within))
    rcases List.mem_append.mp listed with here | there
    · exact here
    · rcases List.mem_cons.mp there with same | later
      · exact absurd same earlier.ne
      · have after := List.rel_of_pairwise_cons (List.pairwise_append.mp sorted).2.1 later
        exact absurd after earlier.asymm
  have miss := misses p' early
  rw [if_neg (by simpa using suiting'), firstOffer_iff.mp offer'] at miss
  cases miss

/-- With no offer a provider has only to suit. -/
theorem chooseProvider_silent (silent : m.offered = []) :
    chooseProvider setup m = none ↔
      ∀ p < setup.providers, suits (setup.caps p).name m.locality = false := by
  simp [chooseProvider, silent]

theorem mem_siblings {chosen p : ProviderId} {blob : Bytes}
    (sibling : (p, blob) ∈ siblings setup m chosen) :
    Reaches setup m p blob ∧ p ≠ chosen ∧
      family (setup.caps p).name = family (setup.caps chosen).name := by
  obtain ⟨p', within, hit⟩ := List.mem_filterMap.mp sibling
  dsimp only at hit
  split at hit
  · cases hit
  rename_i other
  split at hit
  · cases hit
  rename_i kin
  obtain ⟨rfl, offer⟩ := map_find?_offer.mp hit
  simp only [Bool.or_eq_true, Bool.not_eq_true', decide_eq_true_eq, not_or, not_not,
    Bool.not_eq_false] at kin
  exact ⟨⟨List.mem_range.mp within, kin.1, offer⟩, other, kin.2⟩

theorem nodup_siblings (chosen : ProviderId) : ((siblings setup m chosen).map Prod.fst).Nodup := by
  have kept : (siblings setup m chosen).map Prod.fst =
      (List.range setup.providers).filter fun p =>
        (if p = chosen then none
          else if !suits (setup.caps p).name m.locality ||
            family (setup.caps p).name ≠ family (setup.caps chosen).name then none
          else (m.offered.find? (·.name == (setup.caps p).name)).map
            fun o => (p, o.blob)).isSome := by
    rw [siblings, List.map_filterMap, ← List.filterMap_eq_filter]
    refine List.filterMap_congr fun p _ => ?_
    dsimp only [Option.guard]
    split
    · rfl
    · split
      · rfl
      · cases m.offered.find? (·.name == (setup.caps p).name) <;> rfl
  rw [kept]
  exact List.nodup_range.filter _

end

/-! ## The dials -/

section
variable {T : Transport} {W : Type} {setup : Setup W} {m : Metadata} {t : Tid}

/-- The lane's provider is dialled with `blob`, and the connection is the lane's. -/
def Opens (lane : Lane W) (blob : Bytes) (x : World T W × World T W) : Prop :=
  lane.conn = some x.1.dir.nextConn ∧ ∃ a,
    T.connect lane.provider x.1.dir.nextConn blob x.1.transport a = some (.ok, x.2.transport)

theorem ends_connect (prov : ProviderId) (blob : Bytes) (weight : W) :
    Ends t (connect prov blob : Engine T W (Status × ConnId)) fun r l =>
      r.1 = .ok → ∃ x ∈ l, Opens ⟨prov, some r.2, weight⟩ blob x := by
  refine .atom fun s e r s' step ok => ?_
  dsimp only at step
  split at step
  · rename_i a
    obtain ⟨⟨status, σ⟩, dialled, same⟩ := Option.map_eq_some_iff.mp step
    cases same
    exact ⟨_, List.mem_singleton_self _, rfl, a, ok ▸ dialled⟩
  · cases step

theorem ends_exchange {α : Type} (f : World T W → α × World T W) :
    Ends t (exchange f : Engine T W α) fun _ l =>
      ∃ x ∈ l, x.2 = { (f x.1).2 with ledger := x.1.ledger, transport := x.1.transport } := by
  refine .atom fun s e a s' step => ?_
  cases step
  exact ⟨_, List.mem_singleton_self _, rfl⟩

/-- Each lane is one of the providers that were to be dialled, in their order. -/
theorem ends_connectSiblings (others : List (ProviderId × Bytes)) :
    Ends t (connectSiblings setup others : Engine T W (List (Lane W))) fun lanes l =>
      (lanes.map Lane.provider).Sublist (others.map Prod.fst) ∧
      ∀ lane ∈ lanes, ∃ blob, (lane.provider, blob) ∈ others ∧ ∃ x ∈ l, Opens lane blob x := by
  induction others with
  | nil => exact .ret ⟨.slnil, by simp⟩
  | cons other rest ih =>
    obtain ⟨prov, blob⟩ := other
    refine (ends_connect prov blob (setup.relativeCapacity prov)).bind ?_
    rintro ⟨status, conn⟩ l dialled
    refine ih.bind ?_
    rintro more l' ⟨among, dials⟩
    have later : ∀ lane ∈ more, ∃ blob', (lane.provider, blob') ∈ (prov, blob) :: rest ∧
        ∃ x ∈ l ++ (l' ++ []), Opens lane blob' x := by
      intro lane hlane
      obtain ⟨blob', listed, x, hx, this⟩ := dials lane hlane
      exact ⟨blob', .tail _ listed, x, by simp [hx], this⟩
    apply Ends.ret
    split
    · rename_i ok
      obtain ⟨x, hx, this⟩ := dialled ok
      refine ⟨among.cons_cons _, List.forall_mem_cons.mpr ⟨?_, later⟩⟩
      exact ⟨blob, List.mem_cons_self .., x, by simp [hx], this⟩
    · exact ⟨among.cons _, later⟩

/-- What a peer is reached over: lanes of one family and of providers that differ,
each dialled by a step of `l` as the peer offered, the first of them the first in
local order that could be. -/
structure Lanes (setup : Setup W) (m : Metadata) (l : List (World T W × World T W))
    (first : Lane W) (others : List (Lane W)) : Prop where
  offered : ∀ lane ∈ first :: others, ∃ blob, Reaches setup m lane.provider blob ∧
    ∃ x ∈ l, Opens lane blob x
  kin : ∀ lane ∈ first :: others,
    family (setup.caps lane.provider).name = family (setup.caps first.provider).name
  distinct : ((first :: others).map Lane.provider).Nodup
  preferred : ∀ p < first.provider, ∀ blob, ¬Reaches setup m p blob

/-- The lane that was chosen, and the siblings of it that could be dialled. -/
theorem Lanes.of_siblings (first : Lane W) {l l' : List (World T W × World T W)}
    {others : List (Lane W)} {blob : Bytes} (some : m.offered ≠ [])
    (chosen : chooseProvider setup m = Option.some (first.provider, blob))
    (dialled : ∃ x ∈ l, Opens first blob x)
    (among : (others.map Lane.provider).Sublist ((siblings setup m first.provider).map Prod.fst))
    (dials : ∀ lane ∈ others, ∃ blob, (lane.provider, blob) ∈ siblings setup m first.provider ∧
      ∃ x ∈ l', Opens lane blob x) : Lanes setup m (l ++ l') first others := by
  obtain ⟨reaches, preferred⟩ := chooseProvider_some some chosen
  constructor
  case preferred => exact preferred
  case offered =>
    refine List.forall_mem_cons.mpr ⟨?_, fun lane hlane => ?_⟩
    · obtain ⟨x, hx, this⟩ := dialled
      exact ⟨blob, reaches, x, List.mem_append_left _ hx, this⟩
    · obtain ⟨blob', sibling, x, hx, this⟩ := dials lane hlane
      exact ⟨blob', (mem_siblings sibling).1, x, List.mem_append_right _ hx, this⟩
  case kin =>
    refine List.forall_mem_cons.mpr ⟨rfl, fun lane hlane => ?_⟩
    obtain ⟨blob', sibling, -⟩ := dials lane hlane
    exact (mem_siblings sibling).2.2
  case distinct =>
    refine List.nodup_cons.mpr ⟨fun again => ?_, among.nodup (nodup_siblings _)⟩
    obtain ⟨lane, hlane, same⟩ := List.mem_map.mp again
    obtain ⟨blob', sibling, -⟩ := dials lane hlane
    exact (mem_siblings sibling).2.1 same

theorem Lanes.mono {l l' : List (World T W × World T W)} {first : Lane W} {others : List (Lane W)}
    (lanes : Lanes setup m l first others) (more : l ⊆ l') : Lanes setup m l' first others := by
  refine { lanes with offered := fun lane hlane => ?_ }
  obtain ⟨blob, reaches, x, hx, dials⟩ := lanes.offered lane hlane
  exact ⟨blob, reaches, x, more hx, dials⟩

/-- What an `add_peer` comes to that goes by the offers: a peer is added with lanes
dialled as it offered, and nothing is dialled where no provider reaches it. -/
def ByOffers (setup : Setup W) (m : Metadata) (l : List (World T W × World T W)) (reply : Reply) :
    Prop :=
  ∃ status peer, reply = .peer status peer ∧
    (status = .ok → ∃ id first others, peer = some id ∧
      (∃ x ∈ l, x.2.dir = x.1.dir.addPeer id ⟨m.identity, first :: others⟩) ∧
      Lanes setup m l first others) ∧
    ((∀ p blob, ¬Reaches setup m p blob) → status = .unsupported ∧ peer = none ∧ l = [])

theorem ends_addPeer {metadata : Bytes} (read : readMetadata setup.identity metadata = .ok m)
    (some : m.offered ≠ []) :
    Ends t (addPeer setup metadata : Engine T W Reply) fun reply l => ByOffers setup m l reply := by
  simp only [addPeer, read]
  rcases chosen : chooseProvider setup m with _ | ⟨prov, blob⟩
  · exact .ret ⟨_, _, rfl, by rintro ⟨⟩, fun _ => ⟨rfl, rfl, rfl⟩⟩
  have reached : ¬∀ p blob, ¬Reaches setup m p blob :=
    fun none => none prov blob (chooseProvider_some some chosen).1
  refine (ends_connect prov blob (setup.relativeCapacity prov)).bind ?_
  rintro ⟨status, conn⟩ l dialled
  refine .ite (fun refused => .ret ?_) fun ok => ?_
  · exact ⟨_, _, rfl, fun ok => absurd ok refused, fun none => absurd none reached⟩
  refine (ends_connectSiblings (siblings setup m prov)).bind ?_
  rintro others l' ⟨among, dials⟩
  have lanes := Lanes.of_siblings ⟨prov, Option.some conn, setup.relativeCapacity prov⟩ some chosen
    (dialled (not_not.mp ok)) among dials
  refine (ends_exchange _).bind fun id l₁ _ => (ends_exchange _).bind fun _ l₂ added => .ret ?_
  obtain ⟨x, hx, entered⟩ := added
  refine ⟨_, _, rfl, fun _ => ⟨id, _, others, rfl, ⟨x, by simp [hx], ?_⟩, lanes.mono (by simp)⟩,
    fun none => absurd none reached⟩
  rw [entered]

/-- Whatever states its steps find and whatever the dials come to, an `add_peer`
goes by the offers just when there is one, or no provider suits the peer. -/
theorem peers_are_dialled_as_offered (setup : Setup W) (metadata : Bytes) (m : Metadata)
    (read : readMetadata setup.identity metadata = .ok m)
    (l : List (World T W × World T W)) (reply : Reply)
    (took : Took t (addPeer setup metadata) l reply) :
    ByOffers setup m l reply ↔ m.offered ≠ [] ∨
      ∀ p < setup.providers, suits (setup.caps p).name m.locality = false := by
  by_cases silent : m.offered = []
  case neg => exact iff_of_true (ends_addPeer read silent l reply took) (.inl silent)
  have unreached : ∀ p blob, ¬Reaches setup m p blob := by
    rintro p blob ⟨-, -, before, after, offered, -⟩
    simp [silent] at offered
  simp only [silent, ne_eq, not_true, false_or, ← chooseProvider_silent silent]
  cases chosen : chooseProvider setup m with
  | none =>
    simp only [addPeer, read, chosen] at took
    cases took
    exact iff_of_true ⟨_, _, rfl, by rintro ⟨⟩, fun _ => ⟨rfl, rfl, rfl⟩⟩ rfl
  | some choice =>
    -- the dial is a step, and none was to be made
    simp only [addPeer, read, chosen] at took
    refine iff_of_false ?_ (by simp)
    rintro ⟨status, peer, -, -, nothing⟩
    obtain rfl := (nothing unreached).2.2
    cases took

/-- The neighbour is reached over the only provider, with the bytes it gave. -/
theorem peers_are_dialled_as_offered_pair :
    ∃ l id first others, Took 0 (addPeer Pair.setup Pair.neighbourMetadata) l
        (.peer .ok (some id)) ∧
      Lanes (T := Pair.transport) Pair.setup Pair.neighbourRead l first others := by
  obtain ⟨p, -, run, done⟩ := Pair.played .nothing (fun _ _ => True)
    [.spawn (.addPeer Pair.neighbourMetadata), .run 0 3]
    (fun p => p.returned 0 = some (.addPeer Pair.neighbourMetadata, .peer .ok (some 2)))
    (by decide +kernel)
  obtain ⟨l, took⟩ := run.took done
  obtain ⟨status, peer, reply, added, -⟩ := (peers_are_dialled_as_offered Pair.setup
    Pair.neighbourMetadata Pair.neighbourRead (by decide +kernel) l _ took).mpr
    (.inl (by decide))
  cases reply
  obtain ⟨id, first, others, same, -, lanes⟩ := added rfl
  cases same
  exact ⟨l, 2, first, others, took, lanes⟩

namespace Pair

/-- The envelope of a neighbour with no offer. -/
def silentMetadata : Bytes := encodeEnvelope kMetadataMinor ⟨1, 1, 2⟩ []

def silentRead : Metadata :=
  ⟨⟨1, 1, 2⟩, .sameProcess, [], silentMetadata.drop kIdentityBytes⟩

end Pair

/-- No provider reaches it, and it is added with a lane all the same. -/
theorem silent_peer_is_dialled :
    readMetadata Pair.setup.identity Pair.silentMetadata = .ok Pair.silentRead ∧
      (∀ p blob, ¬Reaches Pair.setup Pair.silentRead p blob) ∧
      ∃ p, Pair.Runs (fun _ _ => true = true) p ∧
        p.returned 0 = some (.addPeer Pair.silentMetadata, .peer .ok (some 2)) ∧
        (p.shared.dir.peerObjects 2).lanes.map Lane.provider = [0] := by
  refine ⟨by decide +kernel, ?_, ?_⟩
  · rintro p blob ⟨-, -, before, after, offered, -⟩
    simp [Pair.silentRead] at offered
  · exact Pair.run_of_play .nothing [.spawn (.addPeer Pair.silentMetadata), .run 0 3]
      (by decide +kernel)

end

end Hux
