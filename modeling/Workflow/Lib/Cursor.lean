/-
Module: Workflow.Lib.Cursor
Layer: Lib
Purpose: C functions that walk over a buffer with a pointer and a size. Such a function may return
  early with an error, leaving behind what it has changed so far, and it may not return at all, since
  a loop inside it is still running or since its behaviour is undefined: an `Action` has all three
  outcomes. `At` says which bytes lie ahead of a cursor, and every reader has one lemma that takes `At`
  from before its bytes to after them.
Trusted boundary: none
Main exports: Action, Action.times, Action.zoom, Action.onError, Cursor, bytesAt, readFixed, bigEndian, At,
  At.readFixed
-/
import Workflow.Lib.CString
import Mathlib.Data.Nat.Basic

namespace Workflow.Lib

/-! ### Early return -/

/-- A C function on the state `σ`. The outer `none` means "has not returned", because it is still running
or because its behaviour is undefined, and the inner one "returned an error"; the state is what is left
behind either way. -/
def Action (σ α : Type) : Type :=
  σ → Option (Option α × σ)

namespace Action

variable {σ τ α β : Type}

def fail : Action σ α :=
  fun s => some (none, s)

def andThen (m : Action σ α) (f : α → Action σ β) : Action σ β :=
  fun s => (m s).bind fun
    | (some a, t) => f a t
    | (none, t) => some (none, t)

instance : Monad (Action σ) where
  pure a := fun s => some (some a, s)
  bind := andThen

/-- Store into the state. -/
def update (f : σ → σ) : Action σ Unit :=
  fun s => some (some (), f s)

/-- `for (i = 0; i < n; ++i) body`, for a body that does not use `i`. -/
def times (body : Action σ Unit) : Nat → Action σ Unit
  | 0 => pure ()
  | n + 1 => do
      body
      times body n

/-- Call a function, and `cleanup` before its error is passed on. -/
def onError (m : Action σ α) (cleanup : Action σ Unit) : Action σ α :=
  fun s => (m s).bind fun
    | (some a, t) => some (some a, t)
    | (none, t) => (cleanup t).map fun (_, t) => (none, t)

/-- Call a function on a part of the state. -/
def zoom (get : σ → τ) (put : σ → τ → σ) (m : Action τ α) : Action σ α :=
  fun s => (m (get s)).map fun (a, t) => (a, put s t)

/-- A step that succeeds hands its value and its state to the next one. -/
theorem bind_ok {m : Action σ α} {f : α → Action σ β} {s t : σ} {a : α}
    (h : m s = some (some a, t)) : (m >>= f) s = f a t := by
  show andThen m f s = f a t
  rw [andThen, h]
  rfl

/-- A step that fails ends the sequence. -/
theorem bind_fail {m : Action σ α} {f : α → Action σ β} {s t : σ}
    (h : m s = some (none, t)) : (m >>= f) s = some (none, t) := by
  show andThen m f s = some (none, t)
  rw [andThen, h]
  rfl

/-- A step that is undefined makes the sequence undefined. -/
theorem bind_none {m : Action σ α} {f : α → Action σ β} {s : σ} (h : m s = none) :
    (m >>= f) s = none := by
  show andThen m f s = none
  rw [andThen, h]
  rfl

/-- The clean-up is not run when all went well. -/
theorem onError_ok {m : Action σ α} {cleanup : Action σ Unit} {s t : σ} {a : α}
    (h : m s = some (some a, t)) : onError m cleanup s = some (some a, t) := by
  rw [onError, h]
  rfl

/-- The clean-up is run on the state in which the body failed. -/
theorem onError_fail {m : Action σ α} {cleanup : Action σ Unit} {s t : σ}
    (h : m s = some (none, t)) :
    onError m cleanup s = (cleanup t).map fun (_, t) => (none, t) := by
  rw [onError, h]
  rfl

/-- An action on a part of the state changes that part only. -/
theorem zoom_eq {get : σ → τ} {put : σ → τ → σ} {m : Action τ α} {s : σ} {a : Option α} {t : τ}
    (h : m (get s) = some (a, t)) : zoom get put m s = some (a, put s t) := by
  rw [zoom, h]
  rfl

/-- A pass that succeeds is followed by the other passes. -/
theorem times_succ_ok {body : Action σ Unit} {n : Nat} {s t : σ}
    (h : body s = some (some (), t)) : times body (n + 1) s = times body n t :=
  bind_ok h

theorem times_succ_fail {body : Action σ Unit} {n : Nat} {s t : σ}
    (h : body s = some (none, t)) : times body (n + 1) s = some (none, t) :=
  bind_fail h

theorem times_succ_none {body : Action σ Unit} {n : Nat} {s : σ} (h : body s = none) :
    times body (n + 1) s = none :=
  bind_none h

end Action

/-! ### Bytes in memory -/

/-- `*buf`, as an offset from where the walk began, and `*size`. -/
structure Cursor where
  off : Nat
  size : Nat

/-- The `len` bytes that lie at `off`. -/
def bytesAt (mem : Int → Byte) (off len : Nat) : List Byte :=
  (List.range len).map fun i => mem (off + i : Nat)

/-- The number that bytes write, most significant first. -/
def bigEndianValue (bytes : List Byte) : Nat :=
  bytes.foldl (fun v b => 256 * v + b.toNat) 0

/-- The `k` lowest bytes of `n`, most significant first. -/
def bigEndian : Nat → Nat → List Byte
  | 0, _ => []
  | k + 1, n => bigEndian k (n / 256) ++ [UInt8.ofNat (n % 256)]

/-- Read an integer of `k` bytes in network order, if so many are left. -/
def readFixed (mem : Int → Byte) (k : Nat) : Action Cursor Nat :=
  fun c =>
    if k ≤ c.size then
      some (some (bigEndianValue (bytesAt mem c.off k)), { off := c.off + k, size := c.size - k })
    else some (none, c)

@[simp]
theorem length_bigEndian (k n : Nat) : (bigEndian k n).length = k := by
  induction k generalizing n with
  | zero => rfl
  | succ k ih => simp [bigEndian, ih]

@[simp]
theorem length_bytesAt (mem : Int → Byte) (off len : Nat) : (bytesAt mem off len).length = len := by
  simp [bytesAt]

/-- A number that fits is written and read back. -/
theorem bigEndianValue_bigEndian {k n : Nat} (h : n < 256 ^ k) :
    bigEndianValue (bigEndian k n) = n := by
  induction k generalizing n with
  | zero =>
      have hzero : n = 0 := by simpa using h
      rw [hzero]
      rfl
  | succ k ih =>
      have hhigh : n / 256 < 256 ^ k := by
        rw [Nat.div_lt_iff_lt_mul (by decide), ← Nat.pow_succ]
        exact h
      have hvalue := ih hhigh
      unfold bigEndianValue at hvalue ⊢
      have hlow : (UInt8.ofNat (n % 256)).toNat = n % 256 :=
        UInt8.toNat_ofNat_of_lt' (Nat.mod_lt n (by decide))
      rw [bigEndian, List.foldl_append, hvalue, List.foldl_cons, List.foldl_nil, hlow]
      omega

/-! ### What lies ahead -/

/-- The bytes ahead of the cursor are `bytes`, and they end at `stop`. -/
structure At (mem : Int → Byte) (stop : Nat) (c : Cursor) (bytes : List Byte) : Prop where
  holds : ∀ i (h : i < bytes.length), mem (c.off + (i : Int)) = bytes.get ⟨i, h⟩
  size : c.size = bytes.length
  stop : c.off + bytes.length = stop

namespace At

variable {mem : Int → Byte} {stop : Nat} {c : Cursor} {front rest : List Byte}

/-- The text in front of the cursor is what the memory holds. -/
theorem bytesAt_eq (h : At mem stop c (front ++ rest)) :
    bytesAt mem c.off front.length = front := by
  apply List.ext_getElem (length_bytesAt _ _ _)
  intro i _ hi
  have hread := h.holds i (by rw [List.length_append]; omega)
  simp only [bytesAt, List.getElem_map, List.getElem_range]
  rw [Nat.cast_add, hread, List.get_eq_getElem, List.getElem_append_left hi]

/-- The cursor after the bytes in front. -/
theorem skip (h : At mem stop c (front ++ rest)) :
    At mem stop { off := c.off + front.length, size := c.size - front.length } rest where
  holds := by
    intro i hi
    have hread := h.holds (front.length + i) (by rw [List.length_append]; omega)
    rw [List.get_eq_getElem, List.getElem_append_right (Nat.le_add_right _ _)] at hread
    simp only [Nat.add_sub_cancel_left] at hread
    rw [Nat.cast_add, Int.add_assoc, ← Nat.cast_add, hread]
    rfl
  size := by
    have hsize := h.size
    rw [List.length_append] at hsize
    show c.size - front.length = rest.length
    omega
  stop := by
    have hstop := h.stop
    rw [List.length_append] at hstop
    show c.off + front.length + rest.length = stop
    omega

/-- What lies ahead fits into what is left. -/
theorem length_le (h : At mem stop c (front ++ rest)) : front.length ≤ c.size := by
  rw [h.size, List.length_append]
  exact Nat.le_add_right _ _

/-- At the end, nothing is left. -/
theorem eq_of_nil (h : At mem stop c []) : c = { off := stop, size := 0 } := by
  obtain ⟨off, size⟩ := c
  have hsize := h.size
  have hstop := h.stop
  simp only [List.length_nil, Nat.add_zero] at hsize hstop
  rw [hsize, hstop]

/-- A number of `k` bytes is read back, and the cursor stands behind it. -/
theorem readFixed {k n : Nat} (h : At mem stop c (bigEndian k n ++ rest)) (hn : n < 256 ^ k) :
    ∃ c', readFixed mem k c = some (some n, c') ∧ At mem stop c' rest := by
  have hle := h.length_le
  have hbytes := h.bytesAt_eq
  have hskip := h.skip
  rw [length_bigEndian] at hle hbytes hskip
  refine ⟨_, ?_, hskip⟩
  rw [Lib.readFixed, if_pos hle, hbytes, bigEndianValue_bigEndian hn]

end At

end Workflow.Lib
