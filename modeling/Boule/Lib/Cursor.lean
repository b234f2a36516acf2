import Boule.Lib.KeyScan

/-! Readers that move a cursor over a byte string, and the relation between the values that a
reader returns and the bytes that it takes for them. -/
namespace Boule.Reading
open Framing KeyScan

variable {α β : Type}

/-- How a reader stops early: it returns nothing, it panics, or memory that it asks for is refused,
which ends the process. -/
inductive Stop where
  | rejected
  | panicked
  | aborted
  deriving DecidableEq

structure Cursor where
  buf : List UInt8
  pos : ℕ
  inside : pos ≤ buf.length
  deriving DecidableEq

abbrev Reader (α : Type) : Type := StateT Cursor (Except Stop) α

namespace Cursor

def new (buf : List UInt8) : Cursor := ⟨buf, 0, Nat.zero_le _⟩

def isEmpty (c : Cursor) : Bool := c.pos ≥ c.buf.length

/-- The bytes that are not yet taken. -/
def rest (c : Cursor) : List UInt8 := c.buf.drop c.pos

theorem rest_new (buf : List UInt8) : (new buf).rest = buf := rfl

theorem isEmpty_iff (c : Cursor) : c.isEmpty = true ↔ c.rest = [] := by
  rw [isEmpty, decide_eq_true_iff, rest, List.drop_eq_nil_iff]

end Cursor

/-- A slice has at most `isize::MAX` bytes, so that the end of the next one does not overflow. -/
def take (n : ℕ) : Reader (List UInt8) := fun c =>
  if h : c.pos + n ≤ c.buf.length then .ok ((c.buf.drop c.pos).take n, ⟨c.buf, c.pos + n, h⟩)
  else .error .rejected

/-- A slice by `try_into` as an array. -/
def array (n : ℕ) : Reader (List UInt8) := do
  let slice ← take n
  if slice.length = n then return slice else throw .rejected

/-- A slice by `from_slice` as an array; another length panics. -/
def fixed (n : ℕ) : Reader (List UInt8) := do
  let slice ← take n
  if slice.length = n then return slice else throw .panicked

/-- The first byte of a slice of one byte; an empty slice panics. -/
def byte : Reader UInt8 := do
  match ← take 1 with
  | b :: _ => return b
  | [] => throw .panicked

def uint (width : ℕ) : Reader ℕ := do return fromBigEndian (← array width)

def fixedUint (width : ℕ) : Reader ℕ := do return fromBigEndian (← fixed width)

def expect (bytes : List UInt8) : Reader Unit := do
  if (← take bytes.length) ≠ bytes then throw .rejected

def expectByte (b : UInt8) : Reader Unit := do
  if (← byte) ≠ b then throw .rejected

def isizeMax : ℕ := 2 ^ 63 - 1

/-- `Vec::with_capacity` for `count` elements of `size` bytes, where no more than `memory` bytes are
granted at once. -/
def reserve (memory count size : ℕ) : Reader Unit :=
  if isizeMax < count * size then throw .panicked
  else if memory < count * size then throw .aborted
  else return ()

def times : ℕ → Reader α → Reader (List α)
  | 0, _ => return []
  | n + 1, r => do
    let a ← r
    let more ← times n r
    return a :: more

/-- A number of elements in four bytes, and then the elements, of `size` bytes in memory. -/
def counted (memory size : ℕ) (r : Reader α) : Reader (List α) := do
  let count ← uint 4
  reserve memory count size
  times count r

/-- A number of bytes in four bytes, and then the bytes. A copy of them is no longer than what is
read, and taken to be granted. -/
def framed : Reader (List UInt8) := do take (← uint 4)

/-- What was read, if nothing is left over. -/
def finish (p : α × Cursor) : Except Stop α := if p.2.isEmpty then .ok p.1 else .error .rejected

/-- All of a byte string. -/
def whole (r : Reader α) (buf : List UInt8) : Except Stop α := do finish (← r (.new buf))

/-! ### What a reader accepts -/

/-- The reader returns `a` exactly on bytes that `R` relates to `a`, with the rest left over, and
never panics. -/
structure Reads (R : α → List UInt8 → Prop) (r : Reader α) : Prop where
  sound : ∀ c a c', r c = .ok (a, c') → ∃ bytes, R a bytes ∧ c.rest = bytes ++ c'.rest
  complete : ∀ c a bytes rest, R a bytes → c.rest = bytes ++ rest →
    ∃ c', r c = .ok (a, c') ∧ c'.rest = rest
  safe : ∀ c, r c ≠ .error .panicked

/-- The values in `P` with their encodings. -/
def encodings (P : α → Prop) (w : α → List UInt8) (a : α) (bytes : List UInt8) : Prop :=
  P a ∧ bytes = w a

/-- What is read in two parts. -/
def parts (R : α → List UInt8 → Prop) (S : α → β → List UInt8 → Prop) (b : β)
    (bytes : List UInt8) : Prop :=
  ∃ a x y, R a x ∧ S a b y ∧ bytes = x ++ y

section
variable {R R' : α → List UInt8 → Prop} {r : Reader α} {P : α → Prop} {w : α → List UInt8}

theorem Reads.congr (h : Reads R r) (hiff : ∀ a bytes, R a bytes ↔ R' a bytes) : Reads R' r := by
  have heq : R = R' := funext fun a => funext fun bytes => propext (hiff a bytes)
  rwa [← heq]

theorem reads_pure (a : α) : Reads (fun b bytes => b = a ∧ bytes = []) (pure a : Reader α) where
  sound c b c' h := by
    have hpair : (a, c) = (b, c') := Except.ok.inj h
    cases hpair
    exact ⟨[], ⟨rfl, rfl⟩, rfl⟩
  complete c b bytes rest h hrest := by
    obtain ⟨rfl, rfl⟩ := h
    exact ⟨c, rfl, hrest⟩
  safe c h := by cases h

theorem reads_stop (stop : Stop) (hstop : stop ≠ .panicked) :
    Reads (fun _ _ => False) (throw stop : Reader α) where
  sound c b c' h := by cases h
  complete c b bytes rest h := h.elim
  safe c h := hstop (Except.error.inj h)

theorem bind_apply (r : Reader α) (k : α → Reader β) (c : Cursor) :
    (r >>= k) c = r c >>= fun p => k p.1 p.2 := rfl

theorem Reads.bind {S : α → β → List UInt8 → Prop} {k : α → Reader β} (hr : Reads R r)
    (hk : ∀ a, (∃ bytes, R a bytes) → Reads (S a) (k a)) : Reads (parts R S) (r >>= k) where
  sound c b c' h := by
    rw [bind_apply] at h
    cases hfirst : r c with
    | error e => rw [hfirst] at h; cases h
    | ok p =>
      rw [hfirst] at h
      obtain ⟨x, hx, hrest⟩ := hr.sound c p.1 p.2 hfirst
      obtain ⟨y, hy, hrest'⟩ := (hk p.1 ⟨x, hx⟩).sound p.2 b c' h
      have hall : c.rest = (x ++ y) ++ c'.rest := by rw [hrest, hrest', List.append_assoc]
      exact ⟨x ++ y, ⟨p.1, x, y, hx, hy, rfl⟩, hall⟩
  complete c b bytes rest h hrest := by
    obtain ⟨a, x, y, hx, hy, rfl⟩ := h
    rw [List.append_assoc] at hrest
    obtain ⟨c₁, hfirst, hrest₁⟩ := hr.complete c a x (y ++ rest) hx hrest
    obtain ⟨c₂, hsecond, hrest₂⟩ := (hk a ⟨x, hx⟩).complete c₁ b y rest hy hrest₁
    have hrun : (r >>= k) c = .ok (b, c₂) := by
      rw [bind_apply, hfirst]
      exact hsecond
    exact ⟨c₂, hrun, hrest₂⟩
  safe c h := by
    rw [bind_apply] at h
    cases hfirst : r c with
    | error e =>
      rw [hfirst] at h
      have he : e = .panicked := Except.error.inj h
      exact hr.safe c (he ▸ hfirst)
    | ok p =>
      rw [hfirst] at h
      obtain ⟨x, hx, -⟩ := hr.sound c p.1 p.2 hfirst
      exact (hk p.1 ⟨x, hx⟩).safe p.2 h

/-- A reader of a whole byte string accepts exactly what is related to a value. -/
theorem Reads.whole_iff (h : Reads R r) (buf : List UInt8) (a : α) :
    whole r buf = .ok a ↔ R a buf := by
  constructor
  · intro hok
    rw [whole] at hok
    cases hrun : r (.new buf) with
    | error e => rw [hrun] at hok; cases hok
    | ok p =>
      rw [hrun] at hok
      obtain ⟨bytes, hbytes, hrest⟩ := h.sound _ p.1 p.2 hrun
      change finish p = .ok a at hok
      rw [finish] at hok
      split at hok
      · next hempty =>
        have hnil : p.2.rest = [] := p.2.isEmpty_iff.mp hempty
        have ha : p.1 = a := Except.ok.inj hok
        rw [Cursor.rest_new, hnil, List.append_nil] at hrest
        rwa [hrest, ← ha]
      · cases hok
  · intro hR
    obtain ⟨c', hrun, hrest⟩ := h.complete (.new buf) a buf [] hR (List.append_nil buf).symm
    have hempty : c'.isEmpty = true := c'.isEmpty_iff.mpr hrest
    rw [whole, hrun]
    change finish (a, c') = .ok a
    rw [finish, if_pos hempty]

theorem Reads.whole_safe (h : Reads R r) (buf : List UInt8) : whole r buf ≠ .error .panicked := by
  intro hpanic
  rw [whole] at hpanic
  cases hrun : r (.new buf) with
  | error e =>
    rw [hrun] at hpanic
    have he : e = .panicked := Except.error.inj hpanic
    exact h.safe _ (he ▸ hrun)
  | ok p =>
    rw [hrun] at hpanic
    change finish p = .error .panicked at hpanic
    rw [finish] at hpanic
    split at hpanic
    · cases hpanic
    · cases hpanic

end

/-! ### The readers -/

theorem reads_take (n : ℕ) : Reads (encodings (fun bytes => bytes.length = n) id) (take n) where
  sound c a c' h := by
    rw [take] at h
    split at h
    · next hle =>
      have hpair := Except.ok.inj h
      cases hpair
      have hlen : ((c.buf.drop c.pos).take n).length = n := by
        rw [List.length_take, List.length_drop]
        omega
      have hsplit : c.rest = (c.buf.drop c.pos).take n ++ c.buf.drop (c.pos + n) := by
        rw [Cursor.rest, ← List.drop_drop, List.take_append_drop]
      exact ⟨_, ⟨hlen, rfl⟩, hsplit⟩
    · cases h
  complete c a bytes rest h hrest := by
    obtain ⟨hlen, hid⟩ := h
    change bytes = a at hid
    subst hid
    rw [Cursor.rest] at hrest
    have hle : c.pos + n ≤ c.buf.length := by
      have hsize := congrArg List.length hrest
      have hinside := c.inside
      rw [List.length_drop, List.length_append] at hsize
      omega
    have htake : (c.buf.drop c.pos).take n = bytes := by rw [hrest, List.take_left' hlen]
    have hdrop : c.buf.drop (c.pos + n) = rest := by
      rw [← List.drop_drop, hrest, List.drop_left' hlen]
    have hrun : take n c = .ok (bytes, ⟨c.buf, c.pos + n, hle⟩) := by rw [take, dif_pos hle, htake]
    exact ⟨_, hrun, hdrop⟩
  safe c h := by
    rw [take] at h
    split at h
    · cases h
    · cases h

/-- A slice lies in the bytes that are read. -/
theorem take_inside {n : ℕ} {c c' : Cursor} {slice : List UInt8}
    (h : take n c = .ok (slice, c')) :
    c.pos + n ≤ c.buf.length ∧ slice = (c.buf.drop c.pos).take n ∧ c'.buf = c.buf := by
  rw [take] at h
  split at h
  · next hle =>
    cases Except.ok.inj h
    exact ⟨hle, rfl, rfl⟩
  · cases h

/-- A check that the length of a slice, once taken, always meets. -/
theorem reads_slice (n : ℕ) (stop : Stop) :
    Reads (encodings (fun bytes => bytes.length = n) id)
      (take n >>= fun slice => if slice.length = n then pure slice else throw stop) := by
  have hbind := (reads_take n).bind
    (S := fun a b bytes => b = a ∧ bytes = [])
    (k := fun slice => if slice.length = n then pure slice else throw stop) (by
      intro a ha
      obtain ⟨bytes, hlen, -⟩ := ha
      simp only [if_pos hlen]
      exact reads_pure a)
  refine hbind.congr fun a bytes => ?_
  simp only [parts, encodings, id]
  constructor
  · rintro ⟨x, y, z, ⟨hlen, rfl⟩, ⟨rfl, rfl⟩, rfl⟩
    exact ⟨hlen, List.append_nil _⟩
  · rintro ⟨hlen, rfl⟩
    exact ⟨bytes, bytes, [], ⟨hlen, rfl⟩, ⟨rfl, rfl⟩, (List.append_nil _).symm⟩

theorem reads_array (n : ℕ) : Reads (encodings (fun bytes => bytes.length = n) id) (array n) :=
  reads_slice n .rejected

theorem reads_fixed (n : ℕ) : Reads (encodings (fun bytes => bytes.length = n) id) (fixed n) :=
  reads_slice n .panicked

theorem reads_byte : Reads (encodings (fun _ => True) fun b => [b]) byte := by
  have hbind := (reads_take 1).bind
    (S := fun slice b bytes => slice = [b] ∧ bytes = [])
    (k := fun slice => match slice with
      | b :: _ => (return b : Reader UInt8)
      | [] => throw .panicked) (by
      intro slice hslice
      obtain ⟨bytes, hlen, -⟩ := hslice
      obtain ⟨b, rfl⟩ := List.length_eq_one_iff.mp hlen
      exact (reads_pure b).congr fun b' bytes => by simp [eq_comm])
  refine hbind.congr fun b bytes => ?_
  simp [parts, encodings]

/-- The number of some bytes that a reader takes. -/
theorem reads_number {width : ℕ} {r : Reader (List UInt8)}
    (h : Reads (encodings (fun bytes => bytes.length = width) id) r) :
    Reads (encodings (· < 256 ^ width) (bigEndian width))
      (r >>= fun slice => pure (fromBigEndian slice)) := by
  have hbind := h.bind (S := fun slice n bytes => n = fromBigEndian slice ∧ bytes = [])
    fun slice _ => reads_pure (fromBigEndian slice)
  refine hbind.congr fun n bytes => ?_
  simp only [parts, encodings, id]
  constructor
  · rintro ⟨slice, x, y, ⟨hlen, rfl⟩, ⟨rfl, rfl⟩, rfl⟩
    have hlt := fromBigEndian_lt x
    have hback := bigEndian_fromBigEndian x
    rw [hlen] at hlt hback
    exact ⟨hlt, by rw [hback, List.append_nil]⟩
  · rintro ⟨hlt, rfl⟩
    exact ⟨bigEndian width n, _, [], ⟨length_bigEndian width n, rfl⟩,
      ⟨(fromBigEndian_bigEndian hlt).symm, rfl⟩, (List.append_nil _).symm⟩

theorem reads_uint (width : ℕ) :
    Reads (encodings (· < 256 ^ width) (bigEndian width)) (uint width) :=
  reads_number (reads_array width)

theorem reads_fixedUint (width : ℕ) :
    Reads (encodings (· < 256 ^ width) (bigEndian width)) (fixedUint width) :=
  reads_number (reads_fixed width)

theorem reads_expect (want : List UInt8) :
    Reads (encodings (fun _ : Unit => True) fun _ => want) (expect want) := by
  have hbind := (reads_take want.length).bind
    (S := fun slice (_ : Unit) bytes => slice = want ∧ bytes = [])
    (k := fun slice => if slice ≠ want then throw .rejected else pure ()) (by
      intro slice _
      by_cases hslice : slice = want
      · have hpure : Reads (fun (_ : Unit) bytes => bytes = []) (pure ()) :=
          (reads_pure ()).congr fun _ bytes => by simp
        simpa [hslice] using hpure
      · simpa [hslice] using reads_stop (α := Unit) .rejected (by decide))
  refine hbind.congr fun u bytes => ?_
  simp only [parts, encodings, id]
  constructor
  · rintro ⟨slice, x, y, ⟨hlen, rfl⟩, ⟨rfl, rfl⟩, rfl⟩
    exact ⟨trivial, List.append_nil _⟩
  · rintro ⟨-, rfl⟩
    exact ⟨bytes, bytes, [], ⟨rfl, rfl⟩, ⟨rfl, rfl⟩, (List.append_nil _).symm⟩

theorem reads_expectByte (want : UInt8) :
    Reads (encodings (fun _ : Unit => True) fun _ => [want]) (expectByte want) := by
  have hbind := reads_byte.bind
    (S := fun b (_ : Unit) bytes => b = want ∧ bytes = [])
    (k := fun b => if b ≠ want then throw .rejected else pure ()) (by
      intro b _
      by_cases hb : b = want
      · have hpure : Reads (fun (_ : Unit) bytes => bytes = []) (pure ()) :=
          (reads_pure ()).congr fun _ bytes => by simp
        simpa [hb] using hpure
      · simpa [hb] using reads_stop (α := Unit) .rejected (by decide))
  refine hbind.congr fun u bytes => ?_
  simp [parts, encodings]

theorem reads_reserve (memory : ℕ) {count size : ℕ} (h : count * size ≤ isizeMax) :
    Reads (encodings (fun _ : Unit => count * size ≤ memory) fun _ => [])
      (reserve memory count size) := by
  rw [reserve, if_neg (Nat.not_lt.mpr h)]
  by_cases hmemory : memory < count * size
  · rw [if_pos hmemory]
    have hle : ¬ count * size ≤ memory := Nat.not_le.mpr hmemory
    exact (reads_stop .aborted (by decide)).congr fun _ bytes => by simp [encodings, hle]
  · rw [if_neg hmemory]
    have hle : count * size ≤ memory := Nat.not_lt.mp hmemory
    exact (reads_pure ()).congr fun _ bytes => by simp [encodings, hle]

section
variable {P : α → Prop} {w : α → List UInt8} {r : Reader α}

theorem reads_times (h : Reads (encodings P w) r) (n : ℕ) :
    Reads (encodings (fun xs => xs.length = n ∧ ∀ x ∈ xs, P x) fun xs => xs.flatMap w)
      (times n r) := by
  induction n with
  | zero =>
    refine (reads_pure []).congr fun xs bytes => ?_
    simp only [encodings, List.length_eq_zero_iff]
    constructor
    · rintro ⟨rfl, rfl⟩
      simp
    · rintro ⟨⟨rfl, -⟩, rfl⟩
      simp
  | succ n ih =>
    have hbind := h.bind fun a _ => ih.bind fun more _ => reads_pure (a :: more)
    refine hbind.congr fun xs bytes => ?_
    simp only [parts, encodings]
    constructor
    · rintro ⟨a, x, y, ⟨ha, rfl⟩, ⟨more, z, t, ⟨⟨hlen, hall⟩, rfl⟩, ⟨rfl, rfl⟩, rfl⟩, rfl⟩
      refine ⟨⟨by rw [List.length_cons, hlen], ?_⟩, by simp⟩
      intro x hx
      rcases List.mem_cons.mp hx with rfl | hx
      · exact ha
      · exact hall x hx
    · rintro ⟨⟨hlen, hall⟩, rfl⟩
      cases xs with
      | nil => cases hlen
      | cons a more =>
        have ha : P a := hall a (List.mem_cons_self ..)
        have hmore : ∀ x ∈ more, P x := fun x hx => hall x (List.mem_cons_of_mem _ hx)
        exact ⟨a, w a, more.flatMap w, ⟨ha, rfl⟩,
          ⟨more, more.flatMap w, [], ⟨⟨Nat.succ.inj hlen, hmore⟩, rfl⟩, ⟨rfl, rfl⟩, by simp⟩,
          by simp⟩

/-- The capacity for a number that four bytes hold does not overflow. -/
theorem capacity_le {n size : ℕ} (hn : n < 256 ^ 4) (hsize : size < 2 ^ 31) :
    n * size ≤ isizeMax := by
  have hmul : n * size ≤ (2 ^ 32 - 1) * (2 ^ 31 - 1) := Nat.mul_le_mul (by omega) (by omega)
  have hmax : isizeMax = 2 ^ 63 - 1 := rfl
  omega

theorem reads_counted (memory size : ℕ) (h : Reads (encodings P w) r) (hsize : size < 2 ^ 31) :
    Reads (encodings (fun xs => xs.length < 2 ^ 32 ∧ xs.length * size ≤ memory ∧ ∀ x ∈ xs, P x)
      fun xs => bigEndian 4 xs.length ++ xs.flatMap w) (counted memory size r) := by
  have hbind := (reads_uint 4).bind fun n hn => by
    obtain ⟨_, hlt, -⟩ := hn
    exact (reads_reserve memory (capacity_le hlt hsize)).bind fun _ _ => reads_times h n
  refine hbind.congr fun xs bytes => ?_
  simp only [parts, encodings]
  constructor
  · rintro ⟨n, x, y, ⟨hn, rfl⟩, ⟨_, z, t, ⟨hmemory, rfl⟩, ⟨⟨rfl, hall⟩, rfl⟩, rfl⟩, rfl⟩
    exact ⟨⟨by omega, hmemory, hall⟩, rfl⟩
  · rintro ⟨⟨hlen, hmemory, hall⟩, rfl⟩
    exact ⟨xs.length, _, _, ⟨by omega, rfl⟩,
      ⟨(), [], _, ⟨hmemory, rfl⟩, ⟨⟨rfl, hall⟩, rfl⟩, rfl⟩, rfl⟩

end

theorem reads_framed :
    Reads (encodings (fun bytes => bytes.length < 2 ^ 32) (frame 4)) framed := by
  have hbind := (reads_uint 4).bind fun n _ => reads_take n
  refine hbind.congr fun a bytes => ?_
  simp only [parts, encodings, id]
  constructor
  · rintro ⟨n, x, y, ⟨hn, rfl⟩, ⟨rfl, rfl⟩, rfl⟩
    exact ⟨by omega, rfl⟩
  · rintro ⟨hlen, rfl⟩
    exact ⟨a.length, _, _, ⟨by omega, rfl⟩, ⟨rfl, rfl⟩, rfl⟩

/-! ### Where memory is refused -/

/-- The reader asks for memory that is refused exactly on the bytes in `U`. -/
def Aborts (U : List UInt8 → Prop) (r : Reader α) : Prop := ∀ c, r c = .error .aborted ↔ U c.rest

/-- The reader never asks for memory that may be refused. -/
abbrev Frugal (r : Reader α) : Prop := Aborts (fun _ => False) r

/-- Bytes of a value, and then bytes that are in `V` for it. -/
def after (R : α → List UInt8 → Prop) (V : α → List UInt8 → Prop) (bytes : List UInt8) : Prop :=
  ∃ a x rest, R a x ∧ bytes = x ++ rest ∧ V a rest

/-- Some bytes, whichever, and then bytes in `U`. -/
def skipping (n : ℕ) (U : List UInt8 → Prop) (bytes : List UInt8) : Prop :=
  n ≤ bytes.length ∧ U (bytes.drop n)

theorem skipping_skipping {m n : ℕ} {U : List UInt8 → Prop} {bytes : List UInt8} :
    skipping m (skipping n U) bytes ↔ skipping (m + n) U bytes := by
  unfold skipping
  rw [List.length_drop, List.drop_drop, ← and_assoc]
  exact and_congr_left fun _ => by omega

/-- Bytes that announce more elements than memory is granted for, or fewer elements of them and
then bytes in `U`. -/
def overdrawn (memory size : ℕ) (P : α → Prop) (w : α → List UInt8) (U : List UInt8 → Prop)
    (bytes : List UInt8) : Prop :=
  ∃ count rest, count < 2 ^ 32 ∧ bytes = bigEndian 4 count ++ rest ∧
    (memory < count * size ∨
      ∃ (xs : List α) (more : List UInt8), xs.length < count ∧ (∀ x ∈ xs, P x) ∧
        rest = xs.flatMap w ++ more ∧ U more)

section
variable {R : α → List UInt8 → Prop} {U U' : List UInt8 → Prop} {V : α → List UInt8 → Prop}
  {r : Reader α} {k : α → Reader β} {P : α → Prop} {w : α → List UInt8}

/-- Elements that ask for no memory of their own. -/
theorem overdrawn_iff {memory size : ℕ} {bytes : List UInt8} :
    overdrawn memory size P w (fun _ => False) bytes ↔
      ∃ count rest, count < 2 ^ 32 ∧ bytes = bigEndian 4 count ++ rest ∧ memory < count * size := by
  constructor
  · rintro ⟨count, rest, hcount, rfl, hlarge | ⟨_, _, _, _, _, hfalse⟩⟩
    · exact ⟨count, rest, hcount, rfl, hlarge⟩
    · exact hfalse.elim
  · rintro ⟨count, rest, hcount, rfl, hlarge⟩
    exact ⟨count, rest, hcount, rfl, .inl hlarge⟩

theorem Aborts.congr (h : Aborts U r) (hiff : ∀ bytes, U bytes ↔ U' bytes) : Aborts U' r :=
  fun c => (h c).trans (hiff c.rest)

theorem frugal_pure (a : α) : Frugal (pure a : Reader α) := fun c =>
  iff_of_false (fun h => by cases h) id

theorem frugal_throw (stop : Stop) (hstop : stop ≠ .aborted) : Frugal (throw stop : Reader α) :=
  fun _ => iff_of_false (fun h => hstop (Except.error.inj h)) id

theorem Aborts.bind (hr : Reads R r) (ha : Aborts U r)
    (hk : ∀ a, (∃ bytes, R a bytes) → Aborts (V a) (k a)) :
    Aborts (fun bytes => U bytes ∨ after R V bytes) (r >>= k) := by
  intro c
  rw [bind_apply]
  cases hfirst : r c with
  | error e =>
    have hnone : ¬ after R V c.rest := by
      rintro ⟨a, x, rest, hx, hrest, -⟩
      obtain ⟨c', hok, -⟩ := hr.complete c a x rest hx hrest
      rw [hfirst] at hok
      cases hok
    have hU := ha c
    rw [hfirst] at hU
    exact ⟨fun h => .inl (hU.mp (congrArg _ (Except.error.inj h))), fun h =>
      congrArg _ (Except.error.inj (hU.mpr (h.resolve_right hnone)))⟩
  | ok p =>
    obtain ⟨x, hx, hrest⟩ := hr.sound c p.1 p.2 hfirst
    have hU : ¬ U c.rest := by
      intro h
      have herror := (ha c).mpr h
      rw [hfirst] at herror
      cases herror
    have hafter : after R V c.rest ↔ V p.1 p.2.rest := by
      constructor
      · rintro ⟨a, y, rest, hy, hsplit, hV⟩
        obtain ⟨c', hok, hc'⟩ := hr.complete c a y rest hy hsplit
        rw [hfirst] at hok
        obtain ⟨rfl, rfl⟩ := Prod.mk.inj (Except.ok.inj hok)
        rwa [hc']
      · intro hV
        exact ⟨p.1, x, p.2.rest, hx, hrest, hV⟩
    exact (hk p.1 ⟨x, hx⟩ p.2).trans ⟨fun h => .inr (hafter.mpr h), fun h =>
      hafter.mp (h.resolve_left hU)⟩

theorem Frugal.before (hf : Frugal r) (hr : Reads R r)
    (hk : ∀ a, (∃ bytes, R a bytes) → Aborts (V a) (k a)) : Aborts (after R V) (r >>= k) :=
  (hf.bind hr hk).congr fun _ => iff_of_eq (false_or _)

theorem Frugal.bind (hf : Frugal r) (hk : ∀ a, Frugal (k a)) : Frugal (r >>= k) := by
  intro c
  rw [bind_apply]
  cases hfirst : r c with
  | error e =>
    have hne := hf c
    rw [hfirst] at hne
    exact iff_of_false (fun h => hne.mp (congrArg _ (Except.error.inj h))) id
  | ok p => exact hk p.1 p.2

theorem Aborts.whole_iff (h : Aborts U r) (buf : List UInt8) :
    whole r buf = .error .aborted ↔ U buf := by
  have hU := h (.new buf)
  rw [Cursor.rest_new] at hU
  rw [whole, ← hU]
  cases r (.new buf) with
  | error e =>
    exact ⟨fun h => congrArg _ (Except.error.inj h), fun h => congrArg _ (Except.error.inj h)⟩
  | ok p =>
    refine iff_of_false ?_ (fun h => by cases h)
    change finish p ≠ .error .aborted
    unfold finish
    split
    · exact fun h => by cases h
    · exact fun h => by cases h

theorem frugal_take (n : ℕ) : Frugal (take n) := by
  intro c
  unfold take
  split <;> exact iff_of_false (fun h => by cases h) id

theorem frugal_slice (n : ℕ) (stop : Stop) (hstop : stop ≠ .aborted) :
    Frugal (take n >>= fun slice => if slice.length = n then pure slice else throw stop) := by
  refine (frugal_take n).bind fun slice => ?_
  split
  · exact frugal_pure slice
  · exact frugal_throw stop hstop

theorem frugal_array (n : ℕ) : Frugal (array n) := frugal_slice n .rejected (by decide)

theorem frugal_fixed (n : ℕ) : Frugal (fixed n) := frugal_slice n .panicked (by decide)

theorem frugal_uint (width : ℕ) : Frugal (uint width) :=
  (frugal_array width).bind fun slice => frugal_pure (fromBigEndian slice)

theorem frugal_fixedUint (width : ℕ) : Frugal (fixedUint width) :=
  (frugal_fixed width).bind fun slice => frugal_pure (fromBigEndian slice)

theorem frugal_byte : Frugal byte := by
  refine (frugal_take 1).bind fun slice => ?_
  cases slice with
  | nil => exact frugal_throw .panicked (by decide)
  | cons b _ => exact frugal_pure b

theorem frugal_expect (want : List UInt8) : Frugal (expect want) := by
  refine (frugal_take want.length).bind fun slice => ?_
  by_cases hslice : slice = want
  · simpa [hslice] using frugal_pure ()
  · simpa [hslice] using frugal_throw (α := Unit) .rejected (by decide)

theorem frugal_expectByte (want : UInt8) : Frugal (expectByte want) := by
  refine frugal_byte.bind fun b => ?_
  by_cases hb : b = want
  · simpa [hb] using frugal_pure ()
  · simpa [hb] using frugal_throw (α := Unit) .rejected (by decide)

theorem frugal_framed : Frugal framed := (frugal_uint 4).bind frugal_take

/-- A number on which nothing of what follows depends. -/
theorem aborts_skipping (width : ℕ) {k : ℕ → Reader β} (hk : ∀ n, Aborts U (k n)) :
    Aborts (skipping width U) (uint width >>= k) := by
  refine ((frugal_uint width).before (reads_uint width) fun n _ => hk n).congr fun bytes => ?_
  constructor
  · rintro ⟨n, _, rest, ⟨-, rfl⟩, rfl, hU⟩
    have hlen := length_bigEndian width n
    refine ⟨by rw [List.length_append, hlen]; exact Nat.le_add_right .., ?_⟩
    rwa [List.drop_left' hlen]
  · rintro ⟨hlen, hU⟩
    have htake : (bytes.take width).length = width := by rw [List.length_take, Nat.min_eq_left hlen]
    have hlt := fromBigEndian_lt (bytes.take width)
    have hback := bigEndian_fromBigEndian (bytes.take width)
    rw [htake] at hlt hback
    exact ⟨_, _, bytes.drop width, ⟨hlt, rfl⟩, by rw [hback, List.take_append_drop], hU⟩

theorem aborts_reserve (memory : ℕ) {count size : ℕ} (h : count * size ≤ isizeMax) :
    Aborts (fun _ => memory < count * size) (reserve memory count size) := by
  intro c
  rw [reserve, if_neg (Nat.not_lt.mpr h)]
  by_cases hmemory : memory < count * size
  · rw [if_pos hmemory]
    exact iff_of_true rfl hmemory
  · rw [if_neg hmemory]
    exact iff_of_false (fun h => by cases h) hmemory

theorem aborts_times (hr : Reads (encodings P w) r) (ha : Aborts U r) (n : ℕ) :
    Aborts (fun bytes => ∃ (xs : List α) (more : List UInt8), xs.length < n ∧ (∀ x ∈ xs, P x) ∧
      bytes = xs.flatMap w ++ more ∧ U more) (times n r) := by
  induction n with
  | zero => exact (frugal_pure []).congr fun bytes => by simp
  | succ n ih =>
    have hrest : ∀ a, Aborts _ (times n r >>= fun more => pure (a :: more)) := fun a =>
      ih.bind (reads_times hr n) fun more _ => frugal_pure (a :: more)
    refine (ha.bind hr fun a _ => hrest a).congr fun bytes => ?_
    constructor
    · rintro (hU | ⟨a, _, _, ⟨ha, rfl⟩, rfl, (⟨xs, more, hlen, hall, rfl, hU⟩ | hnone)⟩)
      · exact ⟨[], bytes, Nat.zero_lt_succ n, by simp, rfl, hU⟩
      · refine ⟨a :: xs, more, Nat.succ_lt_succ hlen, ?_, by simp, hU⟩
        intro x hx
        rcases List.mem_cons.mp hx with rfl | hx
        · exact ha
        · exact hall x hx
      · obtain ⟨_, _, _, -, -, hfalse⟩ := hnone
        exact hfalse.elim
    · rintro ⟨xs, more, hlen, hall, rfl, hU⟩
      cases xs with
      | nil => exact .inl hU
      | cons a xs =>
        have ha : P a := hall a (List.mem_cons_self ..)
        have hxs : ∀ x ∈ xs, P x := fun x hx => hall x (List.mem_cons_of_mem _ hx)
        exact .inr ⟨a, w a, xs.flatMap w ++ more, ⟨ha, rfl⟩, by simp,
          .inl ⟨xs, more, Nat.lt_of_succ_lt_succ hlen, hxs, rfl, hU⟩⟩

theorem aborts_counted (memory size : ℕ) (hr : Reads (encodings P w) r) (ha : Aborts U r)
    (hsize : size < 2 ^ 31) :
    Aborts (overdrawn memory size P w U) (counted memory size r) := by
  have hbind := (frugal_uint 4).before (reads_uint 4) fun n hn => by
    obtain ⟨_, hlt, -⟩ := hn
    have hcapacity := capacity_le hlt hsize
    exact (aborts_reserve memory hcapacity).bind (reads_reserve memory hcapacity) fun _ _ =>
      aborts_times hr ha n
  refine hbind.congr fun bytes => ?_
  constructor
  · rintro ⟨n, _, rest, ⟨hn, rfl⟩, rfl, hlarge | ⟨_, _, _, ⟨-, rfl⟩, rfl, hlater⟩⟩
    · exact ⟨n, rest, by omega, rfl, .inl hlarge⟩
    · exact ⟨n, _, by omega, rfl, .inr hlater⟩
  · rintro ⟨n, rest, hn, rfl, hover⟩
    refine ⟨n, _, rest, ⟨by omega, rfl⟩, rfl, ?_⟩
    by_cases hlarge : memory < n * size
    · exact .inl hlarge
    · exact .inr ⟨(), [], rest, ⟨Nat.not_lt.mp hlarge, rfl⟩, rfl, hover.resolve_left hlarge⟩

end

end Boule.Reading
