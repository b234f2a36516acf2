import Mathlib.Logic.Relation
import Mathlib.Data.Nat.Init
import Mathlib.Tactic.ByContra

/-! Safety of the three-chain rule, over any type of blocks. Certification is indexed by the
moment by which the votes exist, so that a vote can be compared with what preceded it. -/
namespace Boule.ChainSafety

/-- Blocks with their parents, and the moments at which they are certified. -/
structure Chain (B : Type) where
  parent : B → B → Prop
  view : B → ℕ
  height : B → ℕ
  cert : ℕ → B → Prop

variable {B : Type} (C : Chain B)

/-- `b` is `a` or one of its descendants. -/
def Extends (b a : B) : Prop := Relation.ReflTransGen C.parent b a

/-- Three certified blocks in consecutive views. -/
structure Committed (c : B) : Prop where
  view_pos : 0 < C.view c
  chain : ∃ t b₂ b₃, C.parent b₃ b₂ ∧ C.parent b₂ c ∧ C.view b₂ = C.view c + 1 ∧
    C.view b₃ = C.view c + 2 ∧ C.cert t c ∧ C.cert t b₂ ∧ C.cert t b₃

/-- What the vote of a common honest voter of `b` and of `x`, whose grandparent is `z`, shows:
by the moment `t` the voter held a lock of view `l`, and voted for `b` in spite of it. -/
structure Evidence (t : ℕ) (b z : B) (l : ℕ) : Prop where
  safe : (∃ a, C.cert t a ∧ Extends C b a ∧ C.view a = l) ∨
    ∃ q, C.parent b q ∧ C.cert t q ∧ l < C.view q
  locked : C.view z ≤ l ∨ ∃ d, Committed C d ∧ C.height d = C.height z ∧ C.cert t z ∧
    C.view d + 1 ≤ l

/-- The rules under which certified blocks cannot leave a committed one. -/
structure Rules : Prop where
  parent_height : ∀ {b q}, C.parent b q → C.height b = C.height q + 1
  cert_unique : ∀ {t t' b b'}, C.cert t b → C.cert t' b' → C.view b = C.view b' → b = b'
  evidence : ∀ {t t' b x y z}, C.cert t b → C.cert t' x → C.parent x y → C.parent y z →
    C.view x < C.view b → 0 < C.view z → ∃ t₀ < t, ∃ l, Evidence C t₀ b z l

variable {C}

theorem height_le_of_extends (hr : Rules C) {b a : B} (h : Extends C b a) :
    C.height a ≤ C.height b := by
  induction h with
  | refl => exact Nat.le_refl _
  | tail _ hp ih =>
    have := hr.parent_height hp
    omega

theorem eq_of_extends_of_height_eq (hr : Rules C) {b a : B} (h : Extends C b a)
    (hh : C.height b = C.height a) : b = a := by
  rcases Relation.ReflTransGen.cases_head h with he | ⟨q, hq, ha⟩
  · exact he
  · have h₁ := hr.parent_height hq
    have h₂ := height_le_of_extends hr ha
    omega

theorem extends_of_view_le_add_two (hr : Rules C) {c b : B} {t : ℕ} (hc : Committed C c)
    (hb : C.cert t b) (hle : C.view c ≤ C.view b) (hlt : C.view b ≤ C.view c + 2) :
    Extends C b c := by
  obtain ⟨T, b₂, b₃, hp₃, hp₂, hv₂, hv₃, hcc, hc₂, hc₃⟩ := hc.chain
  rcases (show C.view b = C.view c ∨ C.view b = C.view b₂ ∨ C.view b = C.view b₃ by omega)
    with h | h | h
  · exact hr.cert_unique hb hcc h ▸ .refl
  · exact hr.cert_unique hb hc₂ h ▸ .single hp₂
  · exact hr.cert_unique hb hc₃ h ▸ .tail (.single hp₃) hp₂

/-- Every certified block at or above a committed one extends it. -/
theorem extends_of_cert (hr : Rules C) {t : ℕ} {b c : B} (hc : Committed C c) (hb : C.cert t b)
    (hv : C.view c ≤ C.view b) : Extends C b c := by
  induction t using Nat.strong_induction_on generalizing b c with
  | _ t ih =>
    by_cases hlt : C.view b ≤ C.view c + 2
    · exact extends_of_view_le_add_two hr hc hb hv hlt
    obtain ⟨T, b₂, b₃, hp₃, hp₂, -, hv₃, -, -, hc₃⟩ := hc.chain
    obtain ⟨t₀, ht₀, l, hsafe, hlocked⟩ :=
      hr.evidence hb hc₃ hp₃ hp₂ (by omega) hc.view_pos
    have hl : C.view c ≤ l := by
      rcases hlocked with h | ⟨d, hd, hh, hcert, hdl⟩
      · exact h
      · by_contra hlt'
        have hext := ih t₀ ht₀ hd hcert (by omega)
        have heq : c = d := eq_of_extends_of_height_eq hr hext hh.symm
        subst heq
        omega
    rcases hsafe with ⟨a, ha, hext, hva⟩ | ⟨q, hq, hcq, hlq⟩
    · exact Relation.ReflTransGen.trans hext (ih t₀ ht₀ hc ha (by omega))
    · exact .head hq (ih t₀ ht₀ hc hcq (by omega))

/-- Two committed blocks lie on one chain. -/
theorem comparable_of_committed (hr : Rules C) {c d : B} (hc : Committed C c)
    (hd : Committed C d) : Extends C c d ∨ Extends C d c := by
  obtain ⟨t, -, -, -, -, -, -, hcc, -, -⟩ := hc.chain
  obtain ⟨t', -, -, -, -, -, -, hdd, -, -⟩ := hd.chain
  rcases Nat.le_total (C.view c) (C.view d) with h | h
  · exact .inr (extends_of_cert hr hc hdd h)
  · exact .inl (extends_of_cert hr hd hcc h)

end Boule.ChainSafety
