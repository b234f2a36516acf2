import Boule.Lib.Run
import Boule.Lib.Totals
import Boule.Reth.RegistrySeed

/-! What holds of the registry contract from its genesis on, whatever is called and in whatever
order. -/
namespace Boule
open Solidity

inductive RegistryCall where
  | recordKey (caller : Address) (validator : ValidatorId) (vEff : ℕ) (key : Bytes)
  | recordWeight (caller : Address) (validator : ValidatorId) (newWeight : ℕ)
  | recordSettled (caller : Address) (viewNum : ℕ)

namespace Registry

def call (r : Registry) : RegistryCall → Except RegistryError Registry
  | .recordKey caller validator vEff key => r.recordKey caller validator vEff key
  | .recordWeight caller validator newWeight => r.recordWeight caller validator newWeight
  | .recordSettled caller viewNum => r.recordSettled caller viewNum

/-- A call that reverts changes nothing. -/
def callStep (r : Registry) (c : RegistryCall) : Registry := keepOnError (r.call c) r

/-- The total weight is the sum of the weights, and the views of each history increase. -/
structure Consistent (r : Registry) : Prop where
  totalWeight : r.totalWeight = r.weight.sumOf fun _ w => w
  increasing : ∀ v, (r.entries v).Pairwise fun e e' => e.vEff < e'.vEff

/-- The key is that of the entry with the greatest view not after `w`, or empty if there is no such
entry. -/
def GreatestKey (entries : List RegistryEntry) (w : ℕ) (key : Bytes) : Prop :=
  (∃ e ∈ entries, e.vEff ≤ w ∧ (∀ e' ∈ entries, e'.vEff ≤ w → e'.vEff ≤ e.vEff) ∧ key = e.key) ∨
    (∀ e ∈ entries, w < e.vEff) ∧ key = []

variable {r r' : Registry}

theorem sumOf_insert_weight (r : Registry) (v : ValidatorId) (w : ℕ) :
    Table.sumOf (fun _ w => w) (r.weight.insert v w) + r.weightOf v =
      r.weight.sumOf (fun _ w => w) + w := by
  have hshare : r.weight.share (fun _ w => w) v = r.weightOf v := by
    unfold Table.share weightOf
    cases r.weight.get? v <;> rfl
  rw [← hshare]
  exact Table.sumOf_insert r.weight v w

/-- A new entry comes after all that are there. -/
theorem consistent_recordKey (h : r.Consistent) {caller : Address} {validator : ValidatorId}
    {vEff : ℕ} {key : Bytes} (hok : r.recordKey caller validator vEff key = .ok r') :
    r'.Consistent := by
  obtain ⟨_, -, hok⟩ := bind_eq_ok.mp hok
  obtain ⟨_, hlater, hok⟩ := bind_eq_ok.mp hok
  have hafter := require_eq_ok.mp hlater
  obtain rfl := Except.ok.inj hok
  refine ⟨h.totalWeight, fun v => ?_⟩
  change ((Table.get? (r.history.insert validator (r.entries validator ++ [⟨vEff, key⟩])) v).getD
    []).Pairwise _
  rw [Table.get?_insert]
  split_ifs with hv
  · rw [Option.getD_some]
    have hold := h.increasing validator
    refine List.pairwise_append.mpr ⟨hold, List.pairwise_singleton .., ?_⟩
    intro e he e' he'
    rw [List.mem_singleton.mp he']
    rcases List.eq_nil_or_concat (r.entries validator) with hnil | ⟨front, last, hlast⟩
    · rw [hnil] at he
      cases he
    · rw [List.concat_eq_append] at hlast
      rw [hlast] at he hold hafter
      have hbound : last.vEff < vEff := by simpa using hafter
      rcases List.mem_append.mp he with hfront | hend
      · have hbefore :=
          (List.pairwise_append.mp hold).2.2 e hfront last (List.mem_singleton.mpr rfl)
        exact lt_trans hbefore hbound
      · rw [List.mem_singleton.mp hend]
        exact hbound
  · exact h.increasing v

/-- The old weight leaves the total and the new one enters it. -/
theorem consistent_recordWeight (h : r.Consistent) {caller : Address} {validator : ValidatorId}
    {newWeight : ℕ} (hok : r.recordWeight caller validator newWeight = .ok r') :
    r'.Consistent := by
  obtain ⟨_, -, hok⟩ := bind_eq_ok.mp hok
  obtain ⟨others, hothers, hok⟩ := bind_eq_ok.mp hok
  obtain ⟨total, htotal, hok⟩ := bind_eq_ok.mp hok
  obtain rfl := Except.ok.inj hok
  refine ⟨?_, h.increasing⟩
  have hsum := checkedAddU64_eq_some.mp (okOr_eq_ok.mp htotal)
  have hinsert := r.sumOf_insert_weight validator newWeight
  unfold subOrRevert at hothers
  split_ifs at hothers with hle
  have hdiff := Except.ok.inj hothers
  have hold := h.totalWeight
  change total = Table.sumOf (fun _ w => w) (r.weight.insert validator newWeight)
  omega

theorem consistent_callStep (h : r.Consistent) (c : RegistryCall) : (r.callStep c).Consistent := by
  unfold callStep keepOnError
  cases hcall : r.call c with
  | error e => exact h
  | ok r' =>
    change r'.Consistent
    cases c with
    | recordKey caller validator vEff key => exact consistent_recordKey h hcall
    | recordWeight caller validator newWeight => exact consistent_recordWeight h hcall
    | recordSettled caller viewNum =>
      obtain ⟨_, -, hok⟩ := bind_eq_ok.mp hcall
      obtain rfl := Except.ok.inj hok
      split_ifs
      · exact h
      · exact ⟨h.totalWeight, h.increasing⟩

theorem settledView_callStep (r : Registry) (c : RegistryCall) :
    r.settledView ≤ (r.callStep c).settledView := by
  unfold callStep keepOnError
  cases hcall : r.call c with
  | error e => exact le_rfl
  | ok r' =>
    change r.settledView ≤ r'.settledView
    cases c with
    | recordKey caller validator vEff key =>
      obtain ⟨_, -, hok⟩ := bind_eq_ok.mp hcall
      obtain ⟨_, -, hok⟩ := bind_eq_ok.mp hok
      obtain rfl := Except.ok.inj hok
      exact le_rfl
    | recordWeight caller validator newWeight =>
      obtain ⟨_, -, hok⟩ := bind_eq_ok.mp hcall
      obtain ⟨_, -, hok⟩ := bind_eq_ok.mp hok
      obtain ⟨_, -, hok⟩ := bind_eq_ok.mp hok
      obtain rfl := Except.ok.inj hok
      exact le_rfl
    | recordSettled caller viewNum =>
      obtain ⟨_, -, hok⟩ := bind_eq_ok.mp hcall
      obtain rfl := Except.ok.inj hok
      split_ifs with hle
      · exact le_rfl
      · exact (Nat.lt_of_not_le hle).le

/-- The loop from the last entry down finds the greatest view. -/
theorem greatestKey_keyAt (h : r.Consistent) (v : ValidatorId) (w : ℕ) :
    GreatestKey (r.entries v) w (r.keyAt v w) := by
  unfold keyAt
  cases hfind : (r.entries v).reverse.find? (·.vEff ≤ w) with
  | none =>
    have hnone := List.find?_eq_none.mp hfind
    refine .inr ⟨fun e he => ?_, rfl⟩
    have hafter := hnone e (List.mem_reverse.mpr he)
    exact Nat.lt_of_not_le fun hle => hafter (decide_eq_true hle)
  | some e =>
    obtain ⟨hle, later, earlier, hsplit, hlater⟩ := List.find?_eq_some_iff_append.mp hfind
    have hentries : r.entries v = earlier.reverse ++ e :: later.reverse := by
      rw [← List.reverse_reverse (r.entries v), hsplit]
      simp
    have hincreasing := h.increasing v
    rw [hentries] at hincreasing ⊢
    refine .inl ⟨e, by simp, of_decide_eq_true hle, fun e' he' hle' => ?_, rfl⟩
    rcases List.mem_append.mp he' with hbefore | hfrom
    · have hlt := (List.pairwise_append.mp hincreasing).2.2 e' hbefore e (List.mem_cons_self ..)
      exact hlt.le
    · rcases List.mem_cons.mp hfrom with rfl | hafter
      · exact le_rfl
      · have hnot := hlater e' (List.mem_reverse.mp hafter)
        simp only [Bool.not_eq_true', decide_eq_false_iff_not] at hnot
        exact absurd hle' hnot

/-- A registry that starts from its genesis. -/
theorem consistent_seeded {seeds : List Seed} (hnodup : (seeds.map Seed.validator).Nodup)
    (h : r.Consistent) (hfresh : ∀ s ∈ seeds, r.weightOf s.validator = 0) :
    (seeds.foldl seedRegistry r).Consistent := by
  induction seeds generalizing r with
  | nil => exact h
  | cons s seeds ih =>
    rw [List.map_cons, List.nodup_cons] at hnodup
    rw [List.foldl_cons]
    refine ih hnodup.2 ⟨?_, fun v => ?_⟩ fun s' hs' => ?_
    · have hinsert := r.sumOf_insert_weight s.validator s.weight
      rw [hfresh s (List.mem_cons_self ..)] at hinsert
      change r.totalWeight + s.weight =
        Table.sumOf (fun _ w => w) (r.weight.insert s.validator s.weight)
      rw [h.totalWeight]
      exact hinsert.symm
    · rw [entries_seedRegistry]
      split_ifs
      · exact List.pairwise_singleton ..
      · exact h.increasing v
    · have hne : s'.validator ≠ s.validator :=
        fun heq => hnodup.1 (heq ▸ List.mem_map_of_mem hs')
      rw [weightOf_seedRegistry, if_neg hne]
      exact hfresh s' (List.mem_cons_of_mem _ hs')

end Registry

section
variable {keccak : Bytes → Word} {toG1 : BlsPublicKey → Option G1Bytes}
  {genesis : List (NodeId × BlsPublicKey × ℕ)} {seeds : List Seed}

theorem SeedsOf.validators (h : SeedsOf toG1 genesis seeds) :
    seeds.map Seed.validator = genesis.map Prod.fst := by
  induction h with
  | nil => rfl
  | cons hhead htail ih => rw [List.map_cons, List.map_cons, hhead.1, ih]

theorem SeedsOf.totalOf (h : SeedsOf toG1 genesis seeds) :
    totalOf seeds = (genesis.map fun e => e.2.2).sum := by
  induction h with
  | nil => rfl
  | cons hhead htail ih => rw [totalOf_cons, List.map_cons, List.sum_cons, hhead.2.2, ih]

theorem SeedsOf.seed (h : SeedsOf toG1 genesis seeds) {e : NodeId × BlsPublicKey × ℕ}
    (he : e ∈ genesis) :
    ∃ s ∈ seeds, s.validator = e.1 ∧ toG1 e.2.1 = some s.key ∧ s.weight = e.2.2 := by
  induction h with
  | nil => cases he
  | cons hhead htail ih =>
    rcases List.mem_cons.mp he with rfl | he
    · exact ⟨_, List.mem_cons_self .., hhead⟩
    · obtain ⟨s, hs, hseed⟩ := ih he
      exact ⟨s, List.mem_cons_of_mem _ hs, hseed⟩

/-- The storage words of the genesis hold the keys, the weights and their total, and from there on,
after any calls, the total is the sum of the weights, the histories increase, a key is looked up by
the greatest view, and the settled view does not fall. -/
theorem registry_surface {words : List StorageEntry}
    (hseed : genesisSeedStorage keccak toG1 genesis = some words)
    (hdistinct : (genesis.map Prod.fst).Nodup)
    (hslots : DistinctSlots keccak (genesis.map Prod.fst)) :
    (∀ e ∈ genesis, (∃ key, toG1 e.2.1 = some key ∧
        ∀ w, RegistryStorage.keyAt keccak (ofEntries words) e.1 w = key.1) ∧
        RegistryStorage.weightOf keccak (ofEntries words) e.1 = e.2.2) ∧
      RegistryStorage.totalWeight (ofEntries words) = (genesis.map fun e => e.2.2).sum ∧
      ∃ r, Registry.genesisSeed (fun pk => (toG1 pk).map Subtype.val) genesis = some r ∧
        (∀ others, (genesis.map Prod.fst ++ others).Nodup →
          DistinctSlots keccak (genesis.map Prod.fst ++ others) →
            StoresRegistry keccak (ofEntries words) r (genesis.map Prod.fst ++ others)) ∧
        ∀ calls, (run Registry.callStep r calls).Consistent ∧
          (∀ v w, Registry.GreatestKey ((run Registry.callStep r calls).entries v) w
            ((run Registry.callStep r calls).keyAt v w)) ∧
          ∀ c, (run Registry.callStep r calls).settledView ≤
            ((run Registry.callStep r calls).callStep c).settledView := by
  obtain ⟨seeds, hseeds, hfit, rfl⟩ := genesisSeedStorage_eq_some hseed
  rw [← hseeds.validators] at hdistinct hslots ⊢
  have hstores := fun others hnodup hslots =>
    @storesRegistry_genesis keccak seeds others hslots hnodup hfit
  have hgenesis := hstores [] (by rwa [List.append_nil]) (by rwa [List.append_nil])
  rw [List.append_nil] at hgenesis
  obtain ⟨hin, -, htotal, -⟩ := seeded_registry hdistinct ⟨∅, ∅, 0, 0⟩
  rw [Nat.zero_add] at htotal
  have hempty : (⟨∅, ∅, 0, 0⟩ : Registry).Consistent := ⟨rfl, fun v => .nil⟩
  have hconsistent := Registry.consistent_seeded hdistinct hempty fun _ _ => rfl
  refine ⟨fun e he => ?_, ?_, seeds.foldl seedRegistry ⟨∅, ∅, 0, 0⟩, ?_, ?_, fun calls => ?_⟩
  · obtain ⟨s, hs, hvalidator, hkey, hweight⟩ := hseeds.seed he
    have hmem : s.validator ∈ seeds.map Seed.validator := List.mem_map_of_mem hs
    obtain ⟨hentries, hweightOf⟩ := hin s hs
    rw [← hvalidator, hgenesis.weightOf _ hmem, hweightOf, hweight]
    refine ⟨⟨s.key, hkey, fun w => ?_⟩, rfl⟩
    rw [hgenesis.keyAt hmem, Registry.keyAt, hentries]
    simp
  · rw [hgenesis.totalWeight, htotal, hseeds.totalOf]
  · exact genesisSeed_loop hseeds (by simpa using hfit)
  · exact hstores
  · have hrun := run_invariant (I := Registry.Consistent)
      (fun r c h => Registry.consistent_callStep h c) hconsistent calls
    exact ⟨hrun, Registry.greatestKey_keyAt hrun, Registry.settledView_callStep _⟩

end

namespace Sample

/-- Keccak-256 of what is hashed for the slots of validators 7 and 8. -/
def registryHash (bytes : Bytes) : Word :=
  if bytes = (Word.ofNat 7).bytes ++ (Word.ofNat 0).bytes then
    .ofNat 0x870253054e3d98b71abec8fff9ebf8a15d167f15909091a800d4acaab9266d2b
  else if bytes = (Word.ofNat 7).bytes ++ (Word.ofNat 1).bytes then
    .ofNat 0xdc686ec4a0ff239c70e7c7c36e8f853eced3bc8618f48d2b816da2a74311237e
  else if bytes =
      (Word.ofNat 0x870253054e3d98b71abec8fff9ebf8a15d167f15909091a800d4acaab9266d2b).bytes then
    .ofNat 0xbed6b174b60e64730a011130c9f953524c9b8b0209c3e867b353a7b046cd8255
  else if bytes =
      (Word.ofNat 0xbed6b174b60e64730a011130c9f953524c9b8b0209c3e867b353a7b046cd8256).bytes then
    .ofNat 0x6c30e8195a6db1f4eb9c22a5e64c6a9f6494b9f85ef159963a97c1c8cca060c6
  else if bytes = (Word.ofNat 8).bytes ++ (Word.ofNat 0).bytes then
    .ofNat 0x5b8b9143058ba3a137192c563ca6541845e62f0a2f9a667aac4db2fa3c334e3c
  else if bytes = (Word.ofNat 8).bytes ++ (Word.ofNat 1).bytes then
    .ofNat 0x4db623e5c4870b62d3fc9b4e8f893a1a77627d75ab45d9ff7e56ba19564af99b
  else if bytes =
      (Word.ofNat 0x5b8b9143058ba3a137192c563ca6541845e62f0a2f9a667aac4db2fa3c334e3c).bytes then
    .ofNat 0xef2846ee7e98ded031e2b681d37ee7450afd3b45eb4f01ec3d948659a36c1953
  else if bytes =
      (Word.ofNat 0xef2846ee7e98ded031e2b681d37ee7450afd3b45eb4f01ec3d948659a36c1954).bytes then
    .ofNat 0x2dd2ae4aeb55928deb9b52263b965a216ea7c2a6e7a4540cd9c63969b4d11c73
  else .ofNat 0

/-- The generator of G1, compressed, and its negative. -/
def generatorKey : BlsPublicKey :=
  0x97f1d3a73197d7942695638c4fa9ac0fc3688c4f9774b905a14e3a3f171bac586c55e83ff97a1aeffb3af00adb22c6bb

def negatedKey : BlsPublicKey :=
  0xb7f1d3a73197d7942695638c4fa9ac0fc3688c4f9774b905a14e3a3f171bac586c55e83ff97a1aeffb3af00adb22c6bb

def generatorX : ℕ :=
  0x17f1d3a73197d7942695638c4fa9ac0fc3688c4f9774b905a14e3a3f171bac586c55e83ff97a1aeffb3af00adb22c6bb

def generatorY : ℕ :=
  0x08b3f481e3aaa0f1a09e30ed741d8ae4fcf5e095d5d00af600db18cb2c04b3edd03cc744a2888ae40caa232946c5e7e1

def negatedY : ℕ :=
  0x114d1d6855d545a8aa7d76c8cf2e21f267816aef1db507c96655b9d5caac42364e6f38ba0ecb751bad54dcd6b939c2ca

/-- Both coordinates, each in 64 bytes. -/
def pointBytes (x y : ℕ) : G1Bytes :=
  ⟨Framing.bigEndian 64 x ++ Framing.bigEndian 64 y,
    by rw [List.length_append, Framing.length_bigEndian, Framing.length_bigEndian]; rfl⟩

def generatorToG1 (pk : BlsPublicKey) : Option G1Bytes :=
  if pk = generatorKey then some (pointBytes generatorX generatorY)
  else if pk = negatedKey then some (pointBytes generatorX negatedY)
  else none

def twoSeeded : List (NodeId × BlsPublicKey × ℕ) := [(7, generatorKey, 10), (8, negatedKey, 20)]

/-- The system call of a block gives validator 8 the weight 25. -/
def reweigh : RegistryCall := .recordWeight systemAddress 8 25

theorem seeded_validator_read : ∃ words,
    genesisSeedStorage registryHash generatorToG1 twoSeeded = some words ∧
      RegistryStorage.weightOf registryHash (ofEntries words) 8 = 20 ∧
      RegistryStorage.totalWeight (ofEntries words) = 30 ∧
      ∃ r, Registry.genesisSeed (fun pk => (generatorToG1 pk).map Subtype.val) twoSeeded = some r ∧
        (run Registry.callStep r [reweigh]).Consistent ∧
        (run Registry.callStep r [reweigh]).totalWeight = 35 := by
  have hsome : (genesisSeedStorage registryHash generatorToG1 twoSeeded).isSome = true := by
    decide +kernel
  obtain ⟨words, hwords⟩ := Option.isSome_iff_exists.mp hsome
  obtain ⟨hread, htotal, r, hr, -, hcalls⟩ :=
    registry_surface hwords (by decide) (by decide +kernel)
  have hafter : ∀ r', Registry.genesisSeed (fun pk => (generatorToG1 pk).map Subtype.val)
      twoSeeded = some r' → (run Registry.callStep r' [reweigh]).totalWeight = 35 := by
    decide +kernel
  have hlast : (8, negatedKey, 20) ∈ twoSeeded := by decide
  exact ⟨words, hwords, (hread _ hlast).2, htotal, r, hr, (hcalls [reweigh]).1, hafter r hr⟩

end Sample
end Boule
