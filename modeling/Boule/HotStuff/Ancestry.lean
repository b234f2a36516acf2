import Boule.HotStuff.Headers

/-! `extends` decides ancestry. The loop ends at the first hash it meets again, so it ends on
every map of blocks, whatever their parents are. -/
namespace Boule

/-- The loop of `extends`, round by round; `none` while it has not ended. -/
def extendsRounds (pending : Table BlockHash Block) (ancestorHash : BlockHash) :
    ℕ → List BlockHash → BlockHash → Option Bool
  | 0, _, _ => none
  | rounds + 1, seen, current =>
    if current ∈ seen then some false
    else
      match pending.get? current with
      | none => some false
      | some block =>
        let parent := block.header.parentHash
        if parent = ancestorHash then some true
        else if parent = 0 then some false
        else extendsRounds pending ancestorHash rounds (current :: seen) parent

/-- `h'` is the parent of the pending block `h`, and the walk goes on from there. -/
def FollowsParent (pending : Table BlockHash Block) (h h' : BlockHash) : Prop :=
  ParentIn pending h h' ∧ h' ≠ 0

/-- `anc` is reached over one or more parents, none of them zero before the last. -/
def IsAncestor (pending : Table BlockHash Block) (h anc : BlockHash) : Prop :=
  ∃ h', Relation.ReflTransGen (FollowsParent pending) h h' ∧ ParentIn pending h' anc

/-- The same with `n` steps before the last one. -/
def ReachesIn (pending : Table BlockHash Block) (anc : BlockHash) : ℕ → BlockHash → Prop
  | 0, h => ParentIn pending h anc
  | n + 1, h => ∃ h', FollowsParent pending h h' ∧ ReachesIn pending anc n h'

variable {pending : Table BlockHash Block} {anc current h h' : BlockHash} {seen : List BlockHash}

theorem exists_reachesIn (ha : IsAncestor pending h anc) : ∃ n, ReachesIn pending anc n h := by
  obtain ⟨last, hpath, hlast⟩ := ha
  induction hpath using Relation.ReflTransGen.head_induction_on with
  | refl => exact ⟨0, hlast⟩
  | head hstep _ ih =>
    obtain ⟨n, hn⟩ := ih
    exact ⟨n + 1, _, hstep, hn⟩

theorem IsAncestor.mono {pending' : Table BlockHash Block} (hw : pending.Within pending')
    (ha : IsAncestor pending h anc) : IsAncestor pending' h anc := by
  have hparent : ∀ x y, ParentIn pending x y → ParentIn pending' x y :=
    fun x y ⟨b, hb, hp⟩ => ⟨b, hw x b hb, hp⟩
  obtain ⟨last, hpath, hlast⟩ := ha
  have hfollow : Relation.ReflTransGen (FollowsParent pending') h last :=
    Relation.ReflTransGen.mono (fun x y hxy => ⟨hparent x y hxy.1, hxy.2⟩) h last hpath
  exact ⟨last, hfollow, hparent last anc hlast⟩

/-! ### The loop ends -/

theorem extendsRounds_eq (rounds : ℕ) (hn : seen.Nodup) (hs : ∀ h ∈ seen, h ∈ pending.keys)
    (hf : pending.size < rounds + seen.length) :
    extendsRounds pending anc rounds seen current =
      some (extendsLoop pending anc rounds seen current) := by
  induction rounds generalizing seen current with
  | zero =>
    have hle : seen.length ≤ pending.keys.length := (hn.subperm hs).length_le
    have hk : pending.keys.length = pending.size := List.length_map _
    omega
  | succ rounds ih =>
    rw [extendsRounds, extendsLoop]
    by_cases hc : current ∈ seen
    · rw [if_pos hc, if_pos hc]
    rw [if_neg hc, if_neg hc]
    cases hb : pending.get? current with
    | none => rfl
    | some b =>
      have hmem : current ∈ pending.keys :=
        List.mem_map_of_mem ((Table.get?_eq_some_iff _ _ _).mp hb)
      have hrest : extendsRounds pending anc rounds (current :: seen) b.header.parentHash =
          some (extendsLoop pending anc rounds (current :: seen) b.header.parentHash) :=
        ih (List.nodup_cons.mpr ⟨hc, hn⟩) (List.forall_mem_cons.mpr ⟨hmem, hs⟩)
          (by rw [List.length_cons]; omega)
      simp only [hrest]
      split_ifs <;> rfl

theorem extendsLoop_of_size_lt {rounds : ℕ} (h : pending.size < rounds) :
    extendsLoop pending anc rounds [] current =
      extendsLoop pending anc (pending.size + 1) [] current := by
  induction rounds, h using Nat.le_induction with
  | base => rfl
  | succ rounds hle ih =>
    have hmore : extendsLoop pending anc rounds [] current =
        extendsLoop pending anc (rounds + 1) [] current :=
      extendsLoop_succ rounds [] current List.nodup_nil
        (fun _ hmem => absurd hmem List.not_mem_nil) (Nat.lt_of_succ_le hle)
    rw [← hmore, ih]

/-- More rounds than there are blocks always suffice. -/
theorem extends_ends {rounds : ℕ} (hne : h ≠ anc) (hr : pending.size < rounds) :
    extendsRounds pending anc rounds [] h = some (extendsAncestor h anc pending) := by
  have hrounds : extendsRounds pending anc rounds [] h =
      some (extendsLoop pending anc rounds [] h) :=
    extendsRounds_eq rounds List.nodup_nil (fun _ hmem => absurd hmem List.not_mem_nil)
      (by simpa using hr)
  rw [hrounds, extendsLoop_of_size_lt hr, extendsAncestor, if_neg hne]

/-! ### What it answers -/

theorem isAncestor_of_extendsLoop {rounds : ℕ}
    (he : extendsLoop pending anc rounds seen current = true) :
    IsAncestor pending current anc := by
  induction rounds generalizing seen current with
  | zero => exact absurd he Bool.false_ne_true
  | succ rounds ih =>
    rw [extendsLoop] at he
    split_ifs at he
    cases hb : pending.get? current with
    | none => simp [hb] at he
    | some b =>
      simp only [hb] at he
      have hp : ParentIn pending current b.header.parentHash := ⟨b, hb, rfl⟩
      split_ifs at he with ha hz
      · exact ⟨current, .refl, ha ▸ hp⟩
      · obtain ⟨last, hpath, hlast⟩ := ih he
        exact ⟨last, .head ⟨hp, hz⟩ hpath, hlast⟩

/-- The nearer a hash is to the ancestor the later it is met, so a shortest way meets no hash
twice. -/
theorem extendsLoop_of_reachesIn {n : ℕ} (hn : ReachesIn pending anc n current)
    (hleast : ∀ m < n, ¬ ReachesIn pending anc m current)
    (hseen : ∀ h ∈ seen, ∀ m ≤ n, ¬ ReachesIn pending anc m h) {rounds : ℕ} (hr : n < rounds) :
    extendsLoop pending anc rounds seen current = true := by
  induction n generalizing seen current rounds with
  | zero =>
    obtain ⟨rounds, rfl⟩ := Nat.exists_eq_add_of_lt hr
    have hnew : current ∉ seen := fun hmem => hseen current hmem 0 (Nat.le_refl _) hn
    obtain ⟨b, hb, hparent⟩ := hn
    rw [extendsLoop, if_neg hnew]
    simp only [hb, hparent, if_true]
  | succ n ih =>
    obtain ⟨rounds, rfl⟩ := Nat.exists_eq_add_of_lt hr
    have hnew : current ∉ seen := fun hmem => hseen current hmem (n + 1) (Nat.le_refl _) hn
    obtain ⟨parent, ⟨hparent, hzero⟩, hrest⟩ := id hn
    have hother : parent ≠ anc := fun he => hleast 0 (Nat.succ_pos n) (he ▸ hparent)
    have hnearer : ∀ m < n, ¬ ReachesIn pending anc m parent := fun m hm hreach =>
      hleast (m + 1) (by omega) ⟨parent, ⟨hparent, hzero⟩, hreach⟩
    have hmet : ∀ h ∈ current :: seen, ∀ m ≤ n, ¬ ReachesIn pending anc m h := by
      intro h hmem m hm
      rcases List.mem_cons.mp hmem with heq | hmem
      · rw [heq]
        exact hleast m (by omega)
      · exact hseen h hmem m (by omega)
    have hloop : extendsLoop pending anc (n + 1 + rounds) (current :: seen) parent = true :=
      ih hrest hnearer hmet (by omega)
    obtain ⟨b, hb, rfl⟩ := hparent
    rw [extendsLoop, if_neg hnew]
    simp only [hb, hother, hzero, if_false]
    exact hloop

theorem extendsLoop_iff : extendsLoop pending anc (pending.size + 1) [] h = true ↔
    IsAncestor pending h anc := by
  classical
  constructor
  · exact isAncestor_of_extendsLoop
  · intro ha
    have hex := exists_reachesIn ha
    have hrounds : pending.size < pending.size + 1 + Nat.find hex := by omega
    rw [← extendsLoop_of_size_lt hrounds]
    refine extendsLoop_of_reachesIn (Nat.find_spec hex) (fun m hm => Nat.find_min hex hm) ?_
      (by omega)
    exact fun _ hmem => absurd hmem List.not_mem_nil

/-- On every map of blocks `extends` ends, and its answer is ancestry. -/
theorem extends_iff_ancestor (pending : Table BlockHash Block)
    (blockHash ancestorHash : BlockHash) :
    (blockHash ≠ ancestorHash → ∀ rounds, pending.size < rounds →
      extendsRounds pending ancestorHash rounds [] blockHash =
        some (extendsAncestor blockHash ancestorHash pending)) ∧
    (extendsAncestor blockHash ancestorHash pending = true ↔
      ancestorHash = blockHash ∨ IsAncestor pending blockHash ancestorHash) := by
  refine ⟨fun hne rounds hr => extends_ends hne hr, ?_⟩
  unfold extendsAncestor
  by_cases heq : blockHash = ancestorHash
  · simp [heq]
  · rw [if_neg heq, extendsLoop_iff, eq_comm]
    simp [heq]

end Boule
