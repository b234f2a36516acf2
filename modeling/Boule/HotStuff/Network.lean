import Boule.HotStuff.Calls
import Boule.HotStuff.Headers
import Boule.Lib.Run

/-! Replicas that exchange proposals and certificates. The log holds every action of every
replica, in the order of the deliveries that caused them. -/
namespace Boule

abbrev NetLog := List (ValidatorId × Action)

structure Net where
  cores : ValidatorId → HotStuffCore
  log : NetLog

structure Delivery where
  node : ValidatorId
  order : IterOrder
  event : Event

namespace Net

/-- Every replica starts from the genesis block, each with its own cache limits. -/
def start (P : Primitives) (vs : ValidatorSet) (genesis : Block)
    (limits : ValidatorId → CacheLimits) : Net where
  cores := fun id => .withLimits id (.new P vs genesis) (limits id)
  log := []

def deliver (P : Primitives) (net : Net) (d : Delivery) : Net :=
  let r := (net.cores d.node).step P d.order d.event
  { cores := Function.update net.cores d.node r.1
    log := net.log ++ r.2.map fun a => (d.node, a) }

end Net

/-- The signers hold more than two thirds of the weight, and each is Byzantine or has
broadcast the vote. -/
def Backed (vs : ValidatorSet) (byz : Finset ValidatorId) (log : NetLog)
    (qc : QuorumCertificate) : Prop :=
  qc.hasQuorum vs = true ∧ ∀ i ∈ qc.signers.iterSet, ∀ id ∈ vs.get? i,
    id ∈ byz ∨ (id, .broadcast (.vote ⟨qc.view, qc.blockHash⟩)) ∈ log

instance (vs : ValidatorSet) (byz : Finset ValidatorId) (log : NetLog) (qc : QuorumCertificate) :
    Decidable (Backed vs byz log qc) := inferInstanceAs (Decidable (_ ∧ _))

theorem Backed.mono {vs : ValidatorSet} {byz : Finset ValidatorId} {log log' : NetLog}
    (hsub : ∀ e ∈ log, e ∈ log') {qc : QuorumCertificate} (h : Backed vs byz log qc) :
    Backed vs byz log' qc :=
  ⟨h.1, fun i hi id hid => (h.2 i hi id hid).imp_right (hsub _)⟩

/-- Two backed certificates share a voter that is not Byzantine. -/
theorem exists_common_voter {vs : ValidatorSet} {byz : Finset ValidatorId} {log log' : NetLog}
    {qc qc' : QuorumCertificate}
    (hz : 3 * Quorum.weight vs.weightAt (vs.indicesOf byz) < vs.totalWeight)
    (h : Backed vs byz log qc) (h' : Backed vs byz log' qc') :
    ∃ id, (id, .broadcast (.vote ⟨qc.view, qc.blockHash⟩)) ∈ log ∧
      (id, .broadcast (.vote ⟨qc'.view, qc'.blockHash⟩)) ∈ log' := by
  rw [ValidatorSet.totalWeight_eq_weight] at hz
  obtain ⟨i, hi, hi', hnz⟩ := Quorum.exists_common_of_isQuorum vs.weightAt
    (qc.signerSet_subset vs) (qc'.signerSet_subset vs) ((qc.hasQuorum_iff vs).mp h.1)
    ((qc'.hasQuorum_iff vs).mp h'.1) (vs.indicesOf byz) hz.le
  have hlt : i < vs.len := Finset.mem_range.mp (qc.signerSet_subset vs hi)
  obtain ⟨id, hid⟩ : ∃ id, vs.get? i = some id := ⟨_, List.getElem?_eq_getElem hlt⟩
  have hbyz : id ∉ byz := fun hb =>
    hnz (Finset.mem_filter.mpr ⟨Finset.mem_range.mpr hlt, id, hb, hid⟩)
  have hmem : ∀ {qc : QuorumCertificate}, i ∈ qc.signerSet vs → i ∈ qc.signers.iterSet :=
    fun hi => (List.mem_filter.mp (List.mem_toFinset.mp hi)).1
  exact ⟨id, (h.2 i (hmem hi) id hid).resolve_left hbyz,
    (h'.2 i (hmem hi') id hid).resolve_left hbyz⟩

section
variable {P : Primitives} (U : HeaderPool P) (vs : ValidatorSet) (byz : Finset ValidatorId)

/-- The proposal extends a header of the pool, which its certificate really certifies. -/
structure Justified (log : NetLog) (p : Proposal) : Prop where
  parent : ∃ q ∈ U.headers, U.ProposedOn p q ∧ q.view < p.block.header.view
  backed : 0 < p.justify.view → Backed vs byz log p.justify

/-- The events the environment may deliver. -/
def Admissible (log : NetLog) : Event → Prop
  | .proposalReceived verified => Justified U vs byz log verified.value.payload
  | .newViewReceived verified =>
    0 < verified.value.payload.highQc.view → Backed vs byz log verified.value.payload.highQc
  | .voteReceived _ => True
  | .pacemakerAdvance _ => True

instance (log : NetLog) (p : Proposal) : Decidable (Justified U vs byz log p) :=
  decidable_of_iff ((∃ q ∈ U.headers, U.ProposedOn p q ∧ q.view < p.block.header.view) ∧
      (0 < p.justify.view → Backed vs byz log p.justify))
    ⟨fun h => ⟨h.1, h.2⟩, fun h => ⟨h.parent, h.backed⟩⟩

instance (log : NetLog) : DecidablePred (Admissible U vs byz log)
  | .proposalReceived _ => inferInstanceAs (Decidable (Justified U vs byz log _))
  | .newViewReceived _ => inferInstanceAs (Decidable (_ → Backed vs byz log _))
  | .voteReceived _ | .pacemakerAdvance _ => inferInstanceAs (Decidable True)

variable {U vs byz}

theorem Justified.mono {log log' : NetLog} (hsub : ∀ e ∈ log, e ∈ log') {p : Proposal}
    (h : Justified U vs byz log p) : Justified U vs byz log' p where
  parent := h.parent
  backed := fun hpos => (h.backed hpos).mono hsub

theorem Admissible.justified {log : NetLog} {e : Event} {signed : Signed Proposal}
    (h : Admissible U vs byz log e) (he : e.proposal? = some signed) :
    Justified U vs byz log signed.payload := by
  cases e with
  | proposalReceived verified =>
    obtain rfl := Option.some.inj he
    exact h
  | voteReceived _ => cases he
  | newViewReceived _ => cases he
  | pacemakerAdvance _ => cases he

/-- The votes, locks and commits of the log. -/
def safetyLog (log : NetLog) : NetLog := log.filter fun e => e.2.isSafety

theorem Justified.safetyLog {log : NetLog} {p : Proposal} (h : Justified U vs byz log p) :
    Justified U vs byz (safetyLog log) p where
  parent := h.parent
  backed := fun hpos => ⟨(h.backed hpos).1, fun j hj id hid =>
    ((h.backed hpos).2 j hj id hid).imp_right fun hv => List.mem_filter.mpr ⟨hv, rfl⟩⟩

/-- The entries an accepted proposal adds to the log. -/
def entries (P : Primitives) (i : ValidatorId) (call : AcceptCall) : NetLog :=
  (call.safetyActions P).map fun a => (i, a)

theorem vote_mem_entries (i : ValidatorId) (s : HotStuffState) (p : Proposal) (v : Vote) :
    (i, .broadcast (.vote v)) ∈ entries P i (s, p) ↔
      s.votesFor P p = true ∧ v = ⟨p.block.header.view, p.block.hash P⟩ := by
  rw [← HotStuffState.vote_mem_acceptProposal]
  simp [entries, AcceptCall.safetyActions, Action.isSafety]

theorem commit_mem_entries (i : ValidatorId) (s : HotStuffState) (p : Proposal) (d : Block) :
    (i, .commit d) ∈ entries P i (s, p) ↔ s.commits P p = some d := by
  rw [← HotStuffState.commit_mem_acceptProposal]
  simp [entries, AcceptCall.safetyActions, Action.isSafety]

theorem safetyLog_deliver (net : Net) (d : Delivery) : safetyLog (net.deliver P d).log =
    safetyLog net.log ++
      ((net.cores d.node).stepCalls P d.order d.event).flatMap (entries P d.node) := by
  have ha := (HotStuffCore.handles_step P d.order (net.cores d.node) d.event).actions
  show safetyLog (net.log ++ _) = _
  rw [Boule.safetyLog, List.filter_append, List.filter_map]
  congr 1
  show (List.filter Action.isSafety _).map _ = _
  rw [ha, List.map_flatMap]
  rfl

end

end Boule
