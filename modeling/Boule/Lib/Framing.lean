import Boule.Lib.Leb128
import Mathlib.Data.Nat.ModEq

/-! Encodings that show where they end, so that what follows one can be told apart from it: lists
with their length in front, sections, optional values. -/
namespace Boule.Framing

variable {α β : Type} {P : α → Prop} {Q : β → Prop} {f : α → List UInt8} {g : β → List UInt8}

/-- Encodings of values in `P` show where they end. -/
def Readable (P : α → Prop) (f : α → List UInt8) : Prop :=
  ∀ a b, P a → P b → ∀ s t, f a ++ s = f b ++ t → a = b ∧ s = t

theorem Readable.eq_of_eq (h : Readable P f) {a b : α} (ha : P a) (hb : P b) (he : f a = f b) :
    a = b :=
  (h a b ha hb [] [] (by rw [he])).1

theorem Readable.injective (h : Readable (fun _ => True) f) : Function.Injective f :=
  fun _ _ he => h.eq_of_eq trivial trivial he

theorem Readable.mono {P' : α → Prop} (h : Readable P f) (hp : ∀ a, P' a → P a) :
    Readable P' f :=
  fun a b ha hb => h a b (hp a ha) (hp b hb)

/-- The encoding of an image, under an injective map. -/
theorem Readable.comp (h : Readable Q g) {e : α → β} (he : Function.Injective e) :
    Readable (fun a => Q (e a)) fun a => g (e a) := by
  intro a b ha hb s t heq
  obtain ⟨hab, hst⟩ := h (e a) (e b) ha hb s t heq
  exact ⟨he hab, hst⟩

theorem Readable.pair (hf : Readable P f) (hg : Readable Q g) :
    Readable (fun p : α × β => P p.1 ∧ Q p.2) fun p => f p.1 ++ g p.2 := by
  rintro ⟨a, b⟩ ⟨a', b'⟩ ⟨ha, hb⟩ ⟨ha', hb'⟩ s t heq
  simp only [List.append_assoc] at heq
  obtain ⟨rfl, hrest⟩ := hf a a' ha ha' _ _ heq
  obtain ⟨rfl, hst⟩ := hg b b' hb hb' s t hrest
  exact ⟨rfl, hst⟩

theorem readable_encode : Readable (fun _ => True) Leb128.encode :=
  fun _ _ _ _ _ _ h => Leb128.encode_append_inj h

/-! ### Lists -/

/-- The length of a list, and then its elements. -/
def list (f : α → List UInt8) (xs : List α) : List UInt8 :=
  Leb128.encode xs.length ++ xs.flatMap f

theorem flatMap_append_inj (h : Readable P f) {xs ys : List α} (hlen : xs.length = ys.length)
    (hx : ∀ x ∈ xs, P x) (hy : ∀ y ∈ ys, P y) {s t : List UInt8}
    (he : xs.flatMap f ++ s = ys.flatMap f ++ t) : xs = ys ∧ s = t := by
  induction xs generalizing ys with
  | nil =>
    obtain rfl : ys = [] := List.eq_nil_of_length_eq_zero hlen.symm
    exact ⟨rfl, he⟩
  | cons x xs ih =>
    cases ys with
    | nil => cases hlen
    | cons y ys =>
      rw [List.flatMap_cons, List.flatMap_cons, List.append_assoc, List.append_assoc] at he
      have hx₀ := hx x (List.mem_cons_self ..)
      have hy₀ := hy y (List.mem_cons_self ..)
      obtain ⟨rfl, hrest⟩ := h x y hx₀ hy₀ _ _ he
      obtain ⟨rfl, hst⟩ := ih (Nat.succ.inj hlen) (fun x hx' => hx x (List.mem_cons_of_mem _ hx'))
        (fun y hy' => hy y (List.mem_cons_of_mem _ hy')) hrest
      exact ⟨rfl, hst⟩

theorem Readable.list (h : Readable P f) : Readable (fun xs => ∀ x ∈ xs, P x) (list f) := by
  intro xs ys hx hy s t he
  unfold Framing.list at he
  rw [List.append_assoc, List.append_assoc] at he
  obtain ⟨hlen, he⟩ := Leb128.encode_append_inj he
  exact flatMap_append_inj h hlen hx hy he

/-! ### Optional values -/

/-- A byte that tells whether the value is there, and then the value. -/
def optional (f : α → List UInt8) : Option α → List UInt8
  | none => [0]
  | some a => 1 :: f a

theorem Readable.optional (h : Readable P f) :
    Readable (fun o => ∀ a ∈ o, P a) (optional f) := by
  intro o o' ho ho' s t he
  cases o with
  | none =>
    cases o' with
    | none => exact ⟨rfl, List.append_cancel_left he⟩
    | some b => cases (List.cons.inj he).1
  | some a =>
    cases o' with
    | none => cases (List.cons.inj he).1
    | some b =>
      obtain ⟨rfl, hst⟩ := h a b (ho a rfl) (ho' b rfl) s t (List.cons.inj he).2
      exact ⟨rfl, hst⟩

/-! ### Sections -/

/-- A number in `width` bytes, the highest first. -/
def bigEndian : ℕ → ℕ → List UInt8
  | 0, _ => []
  | width + 1, n => UInt8.ofNat (n / 256 ^ width) :: bigEndian width n

theorem length_bigEndian (width n : ℕ) : (bigEndian width n).length = width := by
  induction width with
  | zero => rfl
  | succ width ih => rw [bigEndian, List.length_cons, ih]

/-- The bytes are those of the number modulo its width. -/
theorem mod_of_bigEndian {width m n : ℕ} (h : bigEndian width m = bigEndian width n) :
    m % 256 ^ width = n % 256 ^ width := by
  induction width with
  | zero => simp [Nat.mod_one]
  | succ width ih =>
    rw [bigEndian, bigEndian] at h
    obtain ⟨hbyte, hrest⟩ := List.cons.inj h
    have hhigh : m / 256 ^ width % 256 = n / 256 ^ width % 256 := by
      have hnat := congrArg UInt8.toNat hbyte
      rwa [UInt8.toNat_ofNat', UInt8.toNat_ofNat'] at hnat
    rw [pow_succ, Nat.mod_mul, Nat.mod_mul, ih hrest, hhigh]

/-- The length of the bytes, and then the bytes. -/
def frame (width : ℕ) (bytes : List UInt8) : List UInt8 :=
  bigEndian width bytes.length ++ bytes

theorem readable_frame (width : ℕ) :
    Readable (fun bytes => bytes.length < 256 ^ width) (frame width) := by
  intro a b ha hb s t h
  unfold frame at h
  rw [List.append_assoc, List.append_assoc] at h
  obtain ⟨hsize, hrest⟩ := List.append_inj h (by rw [length_bigEndian, length_bigEndian])
  have hlen := mod_of_bigEndian hsize
  rw [Nat.mod_eq_of_lt ha, Nat.mod_eq_of_lt hb] at hlen
  exact List.append_inj hrest hlen

/-! ### Tags -/

/-- No tag begins another one, though they differ in length. -/
def PrefixFree {κ : Type} (tag : κ → List UInt8) : Prop := ∀ k k', tag k <+: tag k' → k = k'

/-- A byte string begins with one tag at most. -/
theorem PrefixFree.eq_of_prefix {κ : Type} {tag : κ → List UInt8} (h : PrefixFree tag) {k k' : κ}
    {bytes : List UInt8} (hk : tag k <+: bytes) (hk' : tag k' <+: bytes) : k = k' := by
  rcases List.prefix_or_prefix_of_prefix hk hk' with hbegins | hbegins
  · exact h k k' hbegins
  · exact (h k' k hbegins).symm

end Boule.Framing
