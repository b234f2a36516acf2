import Boule.Reth.WeightProof

/-! The weights that a proposer can get accepted: those for which some receipt of a recent block
speaks. -/
namespace Boule

section
variable {Raw Node Root : Type} {T : ReceiptTrie Raw Node Root}

/-- A proof that verifies is of what the trie holds. -/
def ReceiptTrie.Sound (T : ReceiptTrie Raw Node Root) : Prop :=
  ∀ raws i raw nodes, T.verify (T.root raws) i raw nodes = true → raws[i]? = some raw

/-- The logs of a receipt that are about the node. -/
def Receipt.logsFor (r : Receipt) (node : NodeId) : List Log := r.logs.filter (logIsFor node)

/-- The receipt has a staking or slashing log for the node and speaks for the weight. -/
def Receipt.SpeaksFor (r : Receipt) (e : NodeId × ℕ) : Prop :=
  r.logsFor e.1 ≠ [] ∧ Backs e.2 (r.logsFor e.1)

/-- A recent block in the window of the carrier has a receipt that speaks for the weight. -/
def Sourced (recent : BlockHash → Option RethBlock) (carrierHeight : ℕ) (e : NodeId × ℕ) : Prop :=
  ∃ anchor src, recent anchor = some src ∧ src.payload.isSome = true ∧
    (src.height < carrierHeight ∧ carrierHeight - src.height ≤ maxWeightProofAnchorLag) ∧
    ∃ r ∈ src.receipts, r.SpeaksFor e

theorem verifyOne_eq_ok {p : WeightProof Raw Node} {root : Root} {logs : List Log} :
    verifyOne T p root = .ok logs ↔ T.verify root p.receiptIndex p.receipt p.proofNodes = true ∧
      ∃ r, T.decode p.receipt = some r ∧ r.logsFor p.nodeId ≠ [] ∧ r.logsFor p.nodeId = logs := by
  unfold verifyOne
  constructor
  · intro h
    obtain ⟨_, hverify, h⟩ := bind_eq_ok.mp h
    obtain ⟨r, hr, h⟩ := bind_eq_ok.mp h
    obtain ⟨_, hne, h⟩ := bind_eq_ok.mp h
    have hlogs : r.logsFor p.nodeId = logs := Except.ok.inj h
    have hsome : r.logsFor p.nodeId ≠ [] := by
      have hempty := require_eq_ok.mp hne
      simpa [Receipt.logsFor] using hempty
    exact ⟨require_eq_ok.mp hverify, r, okOr_eq_ok.mp hr, hsome, hlogs⟩
  · rintro ⟨hverify, r, hr, hne, rfl⟩
    refine bind_eq_ok.mpr ⟨(), require_eq_ok.mpr hverify, bind_eq_ok.mpr ⟨r, okOr_eq_ok.mpr hr,
      bind_eq_ok.mpr ⟨(), require_eq_ok.mpr ?_, rfl⟩⟩⟩
    simpa [Receipt.logsFor] using hne

theorem verifyClaim_eq_ok_iff {proofs : List (WeightProof Raw Node)} {carrierHeight : ℕ}
    {resolve : BlockHash → Option (Root × ℕ)} {e : NodeId × ℕ} :
    verifyClaim T proofs carrierHeight resolve e = .ok () ↔
      ∃ p, proofs.find? (·.nodeId = e.1) = some p ∧ p.weight = e.2 ∧
        ∃ root height, resolve p.anchorBlock = some (root, height) ∧
          (height < carrierHeight ∧ carrierHeight - height ≤ maxWeightProofAnchorLag) ∧
            ∃ logs, verifyOne T p root = .ok logs ∧ Backs e.2 logs := by
  unfold verifyClaim
  constructor
  · intro h
    obtain ⟨p, hp, h⟩ := bind_eq_ok.mp h
    obtain ⟨_, hweight, h⟩ := bind_eq_ok.mp h
    obtain ⟨source, hsource, h⟩ := bind_eq_ok.mp h
    obtain ⟨_, hwindow, h⟩ := bind_eq_ok.mp h
    obtain ⟨logs, hlogs, h⟩ := bind_eq_ok.mp h
    have hinside := require_eq_ok.mp hwindow
    simp only [Bool.and_eq_true, decide_eq_true_iff] at hinside
    exact ⟨p, okOr_eq_ok.mp hp, of_decide_eq_true (require_eq_ok.mp hweight), source.1, source.2,
      okOr_eq_ok.mp hsource, hinside, logs, hlogs, checkWeightConsistentWithLogs_eq_ok.mp h⟩
  · rintro ⟨p, hp, hweight, root, height, hsource, hwindow, logs, hlogs, hbacks⟩
    refine bind_eq_ok.mpr ⟨p, okOr_eq_ok.mpr hp, bind_eq_ok.mpr ⟨(),
      require_eq_ok.mpr (decide_eq_true hweight), bind_eq_ok.mpr ⟨_, okOr_eq_ok.mpr hsource,
        bind_eq_ok.mpr ⟨(), require_eq_ok.mpr ?_, bind_eq_ok.mpr ⟨logs, hlogs,
          checkWeightConsistentWithLogs_eq_ok.mpr hbacks⟩⟩⟩⟩⟩
    simpa using hwindow

/-- The root that a recent block gives is that of its receipts. -/
theorem resolveRecent_eq_some {recent : BlockHash → Option RethBlock} {anchor : BlockHash}
    {root : Root} {height : ℕ} :
    resolveRecent T recent anchor = some (root, height) ↔
      ∃ src, recent anchor = some src ∧ src.payload.isSome = true ∧ src.height = height ∧
        root = T.root (src.receipts.map T.encode) := by
  unfold resolveRecent RethBlock.receiptsRoot RethBlock.receipts
  constructor
  · intro h
    obtain ⟨src, hsrc, h⟩ := Option.bind_eq_some_iff.mp h
    obtain ⟨root', hroot, h⟩ := Option.bind_eq_some_iff.mp h
    obtain ⟨payload, hpayload, rfl⟩ := Option.map_eq_some_iff.mp hroot
    obtain ⟨rfl, rfl⟩ := Prod.mk.inj (Option.some.inj h)
    exact ⟨src, hsrc, by rw [hpayload]; rfl, rfl, by rw [hpayload]; rfl⟩
  · rintro ⟨src, hsrc, hpayload, rfl, rfl⟩
    obtain ⟨payload, hpayload⟩ := Option.isSome_iff_exists.mp hpayload
    simp [hsrc, hpayload]

/-- An accepted weight has its source, whatever the proofs are. -/
theorem sourced_of_accepted (hT : T.Lawful) (hsound : T.Sound)
    {recent : BlockHash → Option RethBlock} {carrierHeight : ℕ} {e : NodeId × ℕ}
    {proofs : List (WeightProof Raw Node)}
    (h : verifyClaim T proofs carrierHeight (resolveRecent T recent) e = .ok ()) :
    Sourced recent carrierHeight e := by
  obtain ⟨p, hp, hweight, root, height, hsource, hwindow, logs, hlogs, hbacks⟩ :=
    verifyClaim_eq_ok_iff.mp h
  obtain ⟨src, hsrc, hpayload, rfl, rfl⟩ := resolveRecent_eq_some.mp hsource
  obtain ⟨hverify, r, hr, hne, rfl⟩ := verifyOne_eq_ok.mp hlogs
  have hraw := hsound _ _ _ _ hverify
  rw [List.getElem?_map] at hraw
  obtain ⟨r', hr', hencoded⟩ := Option.map_eq_some_iff.mp hraw
  have hsame : r' = r := by
    rw [← hencoded, hT.decode_encode] at hr
    exact Option.some.inj hr
  have hmem : r ∈ src.receipts := hsame ▸ List.mem_of_getElem? hr'
  have hfound := List.find?_some hp
  have hnode : p.nodeId = e.1 := of_decide_eq_true hfound
  rw [hnode] at hne hbacks
  exact ⟨p.anchorBlock, src, hsrc, hpayload, hwindow, r, hmem, hne, hbacks⟩

/-- A weight with a source has a proof that is accepted. -/
theorem proof_of_sourced (hT : T.Lawful) {recent : BlockHash → Option RethBlock}
    {carrierHeight : ℕ} {e : NodeId × ℕ} (h : Sourced recent carrierHeight e) :
    ∃ p : WeightProof Raw Node, p.nodeId = e.1 ∧ ∀ proofs : List (WeightProof Raw Node),
      proofs.find? (·.nodeId = e.1) = some p →
        verifyClaim T proofs carrierHeight (resolveRecent T recent) e = .ok () := by
  obtain ⟨anchor, src, hsrc, hpayload, hwindow, r, hmem, hne, hbacks⟩ := h
  obtain ⟨i, hlt, hi⟩ := List.mem_iff_getElem.mp hmem
  have hraw : (src.receipts.map T.encode)[i]? = some (T.encode r) := by
    rw [List.getElem?_map, List.getElem?_eq_getElem hlt, hi]
    rfl
  obtain ⟨nodes, hnodes⟩ := Option.isSome_iff_exists.mp
    (hT.prove_isSome (src.receipts.map T.encode) i (by rw [List.length_map]; exact hlt))
  have hverify := hT.verify_prove _ i nodes _ hnodes hraw
  let p : WeightProof Raw Node := ⟨e.1, e.2, anchor, i, T.encode r, nodes⟩
  refine ⟨p, rfl, fun proofs hfind => ?_⟩
  have hsource : resolveRecent T recent anchor =
      some (T.root (src.receipts.map T.encode), src.height) :=
    resolveRecent_eq_some.mpr ⟨src, hsrc, hpayload, rfl, rfl⟩
  have hlogs : verifyOne T p (T.root (src.receipts.map T.encode)) = .ok (r.logsFor e.1) :=
    verifyOne_eq_ok.mpr ⟨hverify, r, hT.decode_encode r, hne, rfl⟩
  exact verifyClaim_eq_ok_iff.mpr ⟨_, hfind, rfl, _, _, hsource, hwindow, _, hlogs, hbacks⟩

/-- Two weights for one validator are not accepted together. -/
theorem weight_unique {proofs : List (WeightProof Raw Node)} {carrierHeight : ℕ}
    {resolve : BlockHash → Option (Root × ℕ)} {e e' : NodeId × ℕ} (hnode : e.1 = e'.1)
    (h : verifyClaim T proofs carrierHeight resolve e = .ok ())
    (h' : verifyClaim T proofs carrierHeight resolve e' = .ok ()) : e.2 = e'.2 := by
  obtain ⟨p, hp, hweight, -⟩ := verifyClaim_eq_ok_iff.mp h
  obtain ⟨p', hp', hweight', -⟩ := verifyClaim_eq_ok_iff.mp h'
  rw [hnode] at hp
  have hsame : p = p' := Option.some.inj (hp.symm.trans hp')
  rw [← hweight, ← hweight', hsame]

/-- A proposer can get weights accepted exactly when each has its source and no validator has
two. -/
theorem weights_accepted_iff (hT : T.Lawful) (hsound : T.Sound)
    (recent : BlockHash → Option RethBlock) (carrierHeight : ℕ) (claimed : List (NodeId × ℕ)) :
    (∃ proofs, verifyAgainstRecent T proofs claimed carrierHeight (resolveRecent T recent) =
        .ok ()) ↔
      (∀ e ∈ claimed, Sourced recent carrierHeight e) ∧
        ∀ e ∈ claimed, ∀ e' ∈ claimed, e.1 = e'.1 → e.2 = e'.2 := by
  unfold verifyAgainstRecent
  simp only [forM_eq_ok]
  constructor
  · rintro ⟨proofs, h⟩
    have hsourced := fun e he => sourced_of_accepted hT hsound (h e he)
    exact ⟨hsourced, fun e he e' he' hnode => weight_unique hnode (h e he) (h e' he')⟩
  · rintro ⟨hsourced, hunique⟩
    choose f hnode hgood using fun e he => proof_of_sourced (T := T) hT (hsourced e he)
    refine ⟨claimed.attach.map fun e => f e.1 e.2, fun e he => ?_⟩
    apply hgood e he
    have hmem : f e he ∈ claimed.attach.map fun e => f e.1 e.2 :=
      List.mem_map.mpr ⟨⟨e, he⟩, List.mem_attach .., rfl⟩
    have hsome : ((claimed.attach.map fun e => f e.1 e.2).find? (·.nodeId = e.1)).isSome :=
      List.find?_isSome.mpr ⟨f e he, hmem, decide_eq_true (hnode e he)⟩
    obtain ⟨p, hp⟩ := Option.isSome_iff_exists.mp hsome
    obtain ⟨⟨e', he'⟩, -, rfl⟩ := List.mem_map.mp (List.mem_of_find?_eq_some hp)
    have hfound := List.find?_some hp
    have hsame : e'.1 = e.1 := (hnode e' he').symm.trans (of_decide_eq_true hfound)
    have heq : e' = e := Prod.ext hsame (hunique e' he' e he hsame)
    subst heq
    exact hp

end

namespace Sample

theorem receiptTrie_sound : receiptTrie.Sound := by
  intro raws i raw nodes h
  simp only [receiptTrie, id, Bool.and_eq_true, decide_eq_true_iff] at h
  exact h.2

def withdrawLog (node amount : ℕ) : Log :=
  ⟨stakingAddress, [withdrawTopic, node], List.replicate 31 0 ++ [.ofNat amount]⟩

/-- Validator 7 takes 4 of its stake of 10 out. -/
def withdrawn : RethBlock := executed [[withdrawLog 7 4]]

def recentWithdrawn (hash : BlockHash) : Option RethBlock :=
  if hash = withdrawn.hash then some withdrawn else none

/-- A proof of the withdrawal, for a weight that execution did not derive. -/
def inflatedProof : WeightProof Receipt Receipt where
  nodeId := 7
  weight := 1000000
  anchorBlock := withdrawn.hash
  receiptIndex := 0
  receipt := ⟨2, true, 21000, [withdrawLog 7 4]⟩
  proofNodes := [⟨2, true, 21000, [withdrawLog 7 4]⟩]

/-- The stake after the only recent block is 6. -/
theorem inflated_weight_accepted :
    verifyAgainstRecent receiptTrie [inflatedProof] [(7, 1000000)] 2
        (resolveRecent receiptTrie recentWithdrawn) = .ok () ∧
      ∀ anchor src, recentWithdrawn anchor = some src →
        ((RethApplication.start [(7, 10)] 0).commit nothingMissed src
          .valid).1.stakeSource.stakeOf 7 = 6 := by
  refine ⟨by decide +kernel, fun anchor src hsrc => ?_⟩
  unfold recentWithdrawn at hsrc
  split at hsrc
  · obtain rfl := Option.some.inj hsrc
    decide +kernel
  · cases hsrc

theorem inflated_weight_sourced : receiptTrie.Lawful ∧ receiptTrie.Sound ∧
    ((∃ proofs, verifyAgainstRecent receiptTrie proofs [(7, 1000000)] 2
      (resolveRecent receiptTrie recentWithdrawn) = .ok ()) ↔
      (∀ e ∈ [((7 : NodeId), 1000000)], Sourced recentWithdrawn 2 e) ∧
        ∀ e ∈ [((7 : NodeId), 1000000)], ∀ e' ∈ [((7 : NodeId), 1000000)],
          e.1 = e'.1 → e.2 = e'.2) :=
  ⟨receiptTrie_lawful, receiptTrie_sound,
    weights_accepted_iff receiptTrie_lawful receiptTrie_sound recentWithdrawn 2 [(7, 1000000)]⟩

end Sample
end Boule
