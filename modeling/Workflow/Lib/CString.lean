/-
Module: Workflow.Lib.CString
Layer: Lib
Purpose: The C library's string and integer conversions as parsers use them, on lists of bytes: case
  folding in the C locale, `strchr`, `strtol` with saturation, `atoi`, and the conversions between
  `long`, `int` and `size_t` on a 64-bit machine.
Trusted boundary: human-reviewed spec (the C standard's and glibc's documented behaviour)
Main exports: ascii, tolower, strcasecmpEq, strchr, strtol, atoi, atoll, toDecimal, toSize, addSize,
  subSize, strtolRest, strtol_toDecimal, toSize_toInt_saturate_of_lt,
  lt_of_toSize_toInt_saturate, strtol_ten_of_isDigit, strtol_append, strtolRest_append
-/
import Mathlib.Algebra.Ring.Int.Defs
import Mathlib.Algebra.Ring.Nat
import Mathlib.Data.List.Basic
import Mathlib.Data.List.TakeWhile

namespace Workflow.Lib

abbrev Byte := UInt8

/-- The bytes of an ASCII literal. -/
def ascii (s : String) : List Byte :=
  s.toList.map fun c => UInt8.ofNat c.toNat

def CR : Byte := 13
def LF : Byte := 10
def SP : Byte := 32
def HT : Byte := 9

/-- `(signed char)c > 0`. -/
def isPositive (c : Byte) : Bool :=
  0 < c.toNat && c.toNat < 128

def isDigit (c : Byte) : Bool :=
  48 ≤ c.toNat && c.toNat ≤ 57

/-- `isspace` in the C locale. -/
def isSpace (c : Byte) : Bool :=
  c == SP || (9 ≤ c.toNat && c.toNat ≤ 13)

def tolower (c : Byte) : Byte :=
  if 65 ≤ c.toNat && c.toNat ≤ 90 then UInt8.ofNat (c.toNat + 32) else c

/-- `strcasecmp(a, b) == 0`. -/
def strcasecmpEq (a b : List Byte) : Bool :=
  a.map tolower == b.map tolower

/-- Cut a string at the first occurrence of `c`, as `strchr` followed by writing a NUL does. -/
def strchr (c : Byte) : List Byte → Option (List Byte × List Byte)
  | [] => none
  | x :: rest =>
      if x = c then some ([], rest)
      else (strchr c rest).map fun (before, after) => (x :: before, after)

/-! ### `strtol` -/

/-- The value of a digit character, for bases up to 36. -/
def digitValue (c : Byte) : Nat :=
  if 48 ≤ c.toNat && c.toNat ≤ 57 then c.toNat - 48
  else if 97 ≤ c.toNat && c.toNat ≤ 122 then c.toNat - 87
  else if 65 ≤ c.toNat && c.toNat ≤ 90 then c.toNat - 55
  else 36

/-- The digits at the front of a string. -/
def digits (base : Nat) (s : List Byte) : List Byte :=
  s.takeWhile fun c => digitValue c < base

/-- The number that a list of digits writes. -/
def digitsValue (base : Nat) (ds : List Byte) : Nat :=
  ds.foldl (fun v d => base * v + digitValue d) 0

def longMax : Int := 2 ^ 63 - 1
def longMin : Int := -(2 ^ 63)

def saturate (v : Int) : Int :=
  if v > longMax then longMax else if v < longMin then longMin else v

/-- An optional `0x` in base 16. It is skipped only when a hexadecimal digit follows. -/
def skipPrefix (base : Nat) (s : List Byte) : List Byte :=
  match s with
  | z :: x :: d :: rest =>
      if base = 16 && z == 48 && (x == 120 || x == 88) && decide (digitValue d < 16) then d :: rest
      else s
  | _ => s

/-- `strtol(s, &end, base)`: the value, and whether anything was converted (`end != s`). -/
def strtol (base : Nat) (s : List Byte) : Int × Bool :=
  let t := s.dropWhile isSpace
  let negative := t.head? == some 45
  let u := if negative || t.head? == some 43 then t.tail else t
  let ds := digits base (skipPrefix base u)
  let magnitude : Int := digitsValue base ds
  (saturate (if negative then -magnitude else magnitude), ds ≠ [])

/-- `end` after `strtol(s, &end, base)`: the bytes behind the digits, or `s` without a conversion. -/
def strtolRest (base : Nat) (s : List Byte) : List Byte :=
  let t := s.dropWhile isSpace
  let u := if t.head? == some 45 || t.head? == some 43 then t.tail else t
  let v := skipPrefix base u
  if digits base v = [] then s else v.drop (digits base v).length

/-! ### Fixed-width conversions -/

/-- A `long` converted to `int`. -/
def toInt (v : Int) : Int :=
  Int.bmod v (2 ^ 32)

/-- A signed value converted to `size_t`. -/
def toSize (v : Int) : Nat :=
  (v % 2 ^ 64).toNat

/-- `size_t` addition. -/
def addSize (a b : Nat) : Nat :=
  (a + b) % 2 ^ 64

/-- `size_t` subtraction. -/
def subSize (a b : Nat) : Nat :=
  (a + (2 ^ 64 - b % 2 ^ 64)) % 2 ^ 64

/-- `(size_t)-1`. -/
def sizeMax : Nat := 2 ^ 64 - 1

/-- `while (new_size < need) new_size *= 2`. -/
def growBuf (need newSize : Nat) : Nat :=
  if 0 < newSize ∧ newSize < need then growBuf need (2 * newSize) else newSize
termination_by need - newSize

/-- The loop ends with a buffer that is large enough. -/
theorem le_growBuf {need newSize : Nat} (h : 0 < newSize) : need ≤ growBuf need newSize := by
  fun_induction growBuf need newSize with
  | case1 newSize hgrow ih => exact ih (by omega)
  | case2 newSize hstop => omega

/-- `atoi(s)`, which glibc computes as `(int)strtol(s, NULL, 10)`. -/
def atoi (s : List Byte) : Int :=
  toInt (strtol 10 s).1

/-- `atoll(s)`, which is `strtoll(s, NULL, 10)`. -/
def atoll (s : List Byte) : Int :=
  (strtol 10 s).1

/-- The decimal digits of a number. -/
def decimal (n : Nat) : List Byte :=
  if n < 10 then [UInt8.ofNat (48 + n)] else decimal (n / 10) ++ [UInt8.ofNat (48 + n % 10)]

/-- `std::to_string`. -/
def toDecimal (v : Int) : List Byte :=
  if v < 0 then 45 :: decimal v.natAbs else decimal v.natAbs

theorem toInt_of_lt {n : Nat} (h : n < 2 ^ 31) : toInt (n : Int) = n := by
  unfold toInt
  rw [Int.bmod_eq_of_le] <;> omega

theorem toSize_of_lt {n : Nat} (h : n < 2 ^ 64) : toSize (n : Int) = n := by
  unfold toSize
  omega

/-- A `long` that is converted to `int` and then to `size_t` keeps its low 32 bits, sign-extended. -/
theorem toSize_toInt (v : Int) :
    (toSize (toInt v) = v % 2 ^ 32 ∧ v % 2 ^ 32 < 2 ^ 31) ∨
      toSize (toInt v) = 2 ^ 64 - 2 ^ 32 + v % 2 ^ 32 := by
  simp only [toSize, toInt, Int.bmod]
  split <;> omega

theorem saturate_of_lt {n : Nat} (h : n < 2 ^ 63) : saturate n = n := by
  unfold saturate longMax longMin
  rw [if_neg (by omega), if_neg (by omega)]

theorem saturate_of_ge {n : Nat} (h : 2 ^ 63 ≤ n) : saturate n = longMax := by
  unfold saturate
  rw [if_pos (by unfold longMax; omega)]

theorem toSize_toInt_saturate_of_lt {n : Nat} (h : n < 2 ^ 31) :
    toSize (toInt (saturate n)) = n := by
  rw [saturate_of_lt (by omega), toInt_of_lt h, toSize_of_lt (by omega)]

/-- Apart from `(size_t)-1`, only a number below `2 ^ 31` survives the conversions. -/
theorem lt_of_toSize_toInt_saturate {n : Nat} (h : toSize (toInt (saturate n)) = n)
    (hmax : n ≠ sizeMax) : n < 2 ^ 31 := by
  simp only [sizeMax] at hmax
  by_cases hlong : n < 2 ^ 63
  · rw [saturate_of_lt hlong] at h
    have hcases := toSize_toInt n
    omega
  · rw [saturate_of_ge (by omega)] at h
    have hone : toSize (toInt longMax) = 2 ^ 64 - 1 := by decide
    omega

theorem addSize_of_lt {a b : Nat} (h : a + b < 2 ^ 64) : addSize a b = a + b :=
  Nat.mod_eq_of_lt h

theorem subSize_of_le {a b : Nat} (hle : b ≤ a) (ha : a < 2 ^ 64) : subSize a b = a - b := by
  unfold subSize
  omega

theorem skipPrefix_ten (s : List Byte) : skipPrefix 10 s = s := by
  unfold skipPrefix
  split <;> simp

/-- A digit is not a space, and neither sign nor prefix. -/
theorem isDigit_facts {c : Byte} (h : isDigit c = true) :
    isSpace c = false ∧ (c == 45) = false ∧ (c == 43) = false := by
  have hrange : 48 ≤ c.toNat ∧ c.toNat ≤ 57 := by simpa [isDigit] using h
  have hne : ∀ d : Byte, d.toNat < 48 → (c == d) = false := by
    intro d hd
    rw [beq_eq_false_iff_ne]
    rintro rfl
    omega
  refine ⟨?_, hne 45 (by decide), hne 43 (by decide)⟩
  simp only [isSpace, hne SP (by decide), Bool.false_or, Bool.and_eq_false_imp,
    decide_eq_true_eq, decide_eq_false_iff_not]
  omega

/-- On text that starts with a decimal digit `strtol` reads the digits in front, saturating. -/
theorem strtol_ten_of_isDigit {c : Byte} {rest : List Byte} (h : isDigit c = true) :
    (strtol 10 (c :: rest)).1 =
      saturate (digitsValue 10 (digits 10 (c :: rest)) : Nat) := by
  obtain ⟨hspace, hminus, hplus⟩ := isDigit_facts h
  have hdrop : (c :: rest).dropWhile isSpace = c :: rest := by
    simp [hspace]
  simp [strtol, hdrop, skipPrefix_ten, hminus, hplus]

/-! ### A number with text behind it -/

/-- A character that can be no part of a number in base 16. -/
def endsNumber (x : Byte) : Prop :=
  16 ≤ digitValue x ∧ x ≠ 88 ∧ x ≠ 120

theorem skipPrefix_append {base : Nat} {s : List Byte} {x : Byte} (tail : List Byte)
    (hx : endsNumber x) (hs : s ≠ []) :
    skipPrefix base (s ++ x :: tail) = skipPrefix base s ++ x :: tail := by
  obtain ⟨hdigit, h88, h120⟩ := hx
  have hnot : ¬ digitValue x < 16 := Nat.not_lt.mpr hdigit
  match s with
  | [] => exact absurd rfl hs
  | [z] => cases tail <;> simp [skipPrefix, h88, h120]
  | [z, y] => simp [skipPrefix, hnot]
  | z :: y :: d :: rest =>
      simp only [skipPrefix, List.cons_append]
      split <;> rfl

theorem digits_append {base : Nat} {s : List Byte} {x : Byte} (tail : List Byte)
    (hx : base ≤ digitValue x) : digits base (s ++ x :: tail) = digits base s := by
  have hnot : ¬ digitValue x < base := Nat.not_lt.mpr hx
  induction s with
  | nil => simp [digits, hnot]
  | cons c s ih =>
      simp only [digits, List.cons_append, List.takeWhile_cons] at ih ⊢
      rw [ih]

/-- The text behind blanks, sign and prefix is not empty where a number was converted. -/
theorem strtol_converted {base : Nat} {s : List Byte} (h : (strtol base s).2 = true) :
    s.dropWhile isSpace ≠ [] ∧
      (if (s.dropWhile isSpace).head? == some 45 || (s.dropWhile isSpace).head? == some 43 then
        (s.dropWhile isSpace).tail else s.dropWhile isSpace) ≠ [] := by
  simp only [strtol, decide_eq_true_eq] at h
  refine ⟨fun hnil => h (by simp [hnil, skipPrefix, digits]), fun hnil => h ?_⟩
  rw [hnil]
  rfl

theorem dropWhile_append_of_ne_nil {s : List Byte} (tail : List Byte)
    (h : s.dropWhile isSpace ≠ []) :
    (s ++ tail).dropWhile isSpace = s.dropWhile isSpace ++ tail := by
  rw [List.dropWhile_append, if_neg (by simpa using h)]

/-- The text that the digits are read from, with more text behind it. -/
theorem strtol_text_append {base : Nat} {s : List Byte} {x : Byte} (tail : List Byte)
    (hx : endsNumber x) (h : (strtol base s).2 = true) :
    let text := fun s : List Byte =>
      skipPrefix base (if (s.dropWhile isSpace).head? == some 45 ||
        (s.dropWhile isSpace).head? == some 43 then (s.dropWhile isSpace).tail
        else s.dropWhile isSpace)
    text (s ++ x :: tail) = text s ++ x :: tail ∧
      ((s ++ x :: tail).dropWhile isSpace).head? = (s.dropWhile isSpace).head? := by
  intro text
  obtain ⟨hblank, hsign⟩ := strtol_converted h
  have hdrop := dropWhile_append_of_ne_nil (x :: tail) hblank
  have hhead : ((s ++ x :: tail).dropWhile isSpace).head? = (s.dropWhile isSpace).head? := by
    rw [hdrop, List.head?_append_of_ne_nil _ hblank]
  refine ⟨?_, hhead⟩
  simp only [text, hhead]
  rw [← skipPrefix_append tail hx hsign, hdrop]
  split
  · rw [List.tail_append_of_ne_nil hblank]
  · rfl

/-- Text behind a converted number does not change it. -/
theorem strtol_append {base : Nat} {s : List Byte} {x : Byte} (tail : List Byte)
    (hbase : base ≤ digitValue x) (hx : endsNumber x) (h : (strtol base s).2 = true) :
    strtol base (s ++ x :: tail) = strtol base s := by
  obtain ⟨htext, hhead⟩ := strtol_text_append tail hx h
  simp only [strtol, hhead] at htext ⊢
  rw [htext, digits_append tail hbase]

/-- The text behind a number stays behind it. -/
theorem strtolRest_append {base : Nat} {s : List Byte} {x : Byte} (tail : List Byte)
    (hbase : base ≤ digitValue x) (hx : endsNumber x) (h : (strtol base s).2 = true) :
    strtolRest base (s ++ x :: tail) = strtolRest base s ++ x :: tail := by
  obtain ⟨htext, hhead⟩ := strtol_text_append tail hx h
  simp only [strtol, decide_eq_true_eq] at h
  simp only [strtolRest, hhead] at htext ⊢
  rw [htext, digits_append tail hbase, if_neg h, if_neg h, List.drop_append_of_le_length]
  exact (List.takeWhile_prefix _).length_le

/-- A character that `strtol` can read past: blank, sign, prefix or digit. -/
def numberChar (base : Nat) (c : Byte) : Prop :=
  isSpace c = true ∨ c = 45 ∨ c = 43 ∨ c = 48 ∨ c = 88 ∨ c = 120 ∨ digitValue c < base

theorem skipPrefix_front (base : Nat) (s : List Byte) :
    ∃ front, s = front ++ skipPrefix base s ∧ ∀ c ∈ front, numberChar base c := by
  unfold skipPrefix
  split
  · rename_i z x d rest
    split
    · rename_i hpre
      simp only [Bool.and_eq_true, Bool.or_eq_true, beq_iff_eq, decide_eq_true_eq] at hpre
      refine ⟨[z, x], rfl, fun c hc => ?_⟩
      unfold numberChar
      grind
    · exact ⟨[], rfl, by simp⟩
  · exact ⟨[], rfl, by simp⟩

/-- `strtol` reads past characters of a number only. -/
theorem strtolRest_front (base : Nat) (s : List Byte) :
    ∃ front, s = front ++ strtolRest base s ∧ ∀ c ∈ front, numberChar base c := by
  -- blanks, then the sign, then the prefix, then the digits
  have hblank : ∀ c ∈ s.takeWhile isSpace, numberChar base c :=
    fun c hc => Or.inl (List.mem_takeWhile_imp hc)
  generalize ht : s.dropWhile isSpace = t
  have hs : s = s.takeWhile isSpace ++ t := by
    rw [← ht, List.takeWhile_append_dropWhile]
  generalize hu : (if t.head? == some 45 || t.head? == some 43 then t.tail else t) = u
  obtain ⟨sign, hsign, hsignc⟩ : ∃ sign, t = sign ++ u ∧ ∀ c ∈ sign, numberChar base c := by
    cases t with
    | nil => exact ⟨[], by simp [← hu], by simp⟩
    | cons c t =>
        by_cases hc : c = 45 ∨ c = 43
        · refine ⟨[c], by simp [← hu, hc], ?_⟩
          intro d hd
          rw [List.mem_singleton.mp hd]
          unfold numberChar
          tauto
        · exact ⟨[], by simp [← hu, not_or.mp hc], by simp⟩
  obtain ⟨pre, hpre, hprec⟩ := skipPrefix_front base u
  have hdigits : ∀ c ∈ digits base (skipPrefix base u), numberChar base c := by
    intro c hc
    have hlt : digitValue c < base := by simpa using List.mem_takeWhile_imp hc
    unfold numberChar
    tauto
  have hrest : strtolRest base s =
      if digits base (skipPrefix base u) = [] then s
      else (skipPrefix base u).drop (digits base (skipPrefix base u)).length := by
    simp only [strtolRest, ht, hu]
  rw [hrest]
  split
  · exact ⟨[], rfl, by simp⟩
  · have hv : skipPrefix base u = digits base (skipPrefix base u) ++
        (skipPrefix base u).drop (digits base (skipPrefix base u)).length :=
      (List.prefix_iff_eq_append.mp (List.takeWhile_prefix _)).symm
    refine ⟨s.takeWhile isSpace ++ sign ++ pre ++ digits base (skipPrefix base u), ?_, ?_⟩
    · rw [List.append_assoc, ← hv, List.append_assoc, ← hpre, List.append_assoc, ← hsign, ← hs]
    · intro c hc
      simp only [List.mem_append] at hc
      rcases hc with ((hc | hc) | hc) | hc
      · exact hblank c hc
      · exact hsignc c hc
      · exact hprec c hc
      · exact hdigits c hc

/-! ### Decimal numbers -/

theorem digit_facts {d : Nat} (h : d < 10) :
    isDigit (UInt8.ofNat (48 + d)) = true ∧ digitValue (UInt8.ofNat (48 + d)) = d := by
  have hnat : (UInt8.ofNat (48 + d)).toNat = 48 + d := by
    rw [UInt8.toNat_ofNat']
    omega
  refine ⟨?_, ?_⟩
  · simp only [isDigit, hnat, Bool.and_eq_true, decide_eq_true_eq]
    omega
  · simp only [digitValue, hnat, Bool.and_eq_true, decide_eq_true_eq]
    rw [if_pos (by omega)]
    omega

theorem decimal_isDigit (n : Nat) : ∀ c ∈ decimal n, isDigit c = true := by
  fun_induction decimal n with
  | case1 n hlt =>
      intro c hc
      rw [List.mem_singleton.mp hc]
      exact (digit_facts hlt).1
  | case2 n hge ih =>
      intro c hc
      rcases List.mem_append.mp hc with hfront | hlast
      · exact ih c hfront
      · rw [List.mem_singleton.mp hlast]
        exact (digit_facts (Nat.mod_lt n (by decide))).1

theorem decimal_ne_nil (n : Nat) : decimal n ≠ [] := by
  rw [decimal]
  split
  · exact List.cons_ne_nil _ _
  · exact List.append_ne_nil_of_right_ne_nil _ (List.cons_ne_nil _ _)

theorem digitsValue_decimal (n : Nat) : digitsValue 10 (decimal n) = n := by
  unfold digitsValue
  fun_induction decimal n with
  | case1 n hlt => simp only [List.foldl_cons, List.foldl_nil, (digit_facts hlt).2, Nat.mul_zero,
      Nat.zero_add]
  | case2 n hge ih =>
      rw [List.foldl_append, ih]
      simp only [List.foldl_cons, List.foldl_nil, (digit_facts (Nat.mod_lt n (by decide))).2]
      omega

theorem decimal_length_le {n k : Nat} (h : n < 10 ^ (k + 1)) : (decimal n).length ≤ k + 1 := by
  induction k generalizing n with
  | zero =>
      rw [decimal, if_pos (by simpa using h)]
      simp
  | succ k ih =>
      rw [decimal]
      split
      · simp
      · have hdiv : n / 10 < 10 ^ (k + 1) := by
          rw [Nat.pow_succ] at h
          omega
        simpa using ih hdiv

/-- All characters of a decimal number are digits. -/
theorem digits_decimal (n : Nat) : digits 10 (decimal n) = decimal n := by
  unfold digits
  refine List.takeWhile_eq_self_iff.mpr fun c hc => ?_
  have hrange : 48 ≤ c.toNat ∧ c.toNat ≤ 57 := by simpa [isDigit] using decimal_isDigit n c hc
  simp only [digitValue, Bool.and_eq_true, decide_eq_true_eq]
  rw [if_pos hrange]
  omega

/-- `strtol` reads back what `std::to_string` writes. -/
theorem strtol_toDecimal {v : Int} (hlow : longMin ≤ v) (hhigh : v ≤ longMax) :
    (strtol 10 (toDecimal v)).1 = v := by
  have hsat : saturate v = v := by
    unfold saturate
    rw [if_neg (by omega), if_neg (by omega)]
  unfold toDecimal
  split
  · have hspace : (45 :: decimal v.natAbs).dropWhile isSpace = 45 :: decimal v.natAbs := rfl
    simp only [strtol, hspace, List.head?_cons, BEq.rfl, Bool.true_or, if_true, List.tail_cons,
      skipPrefix_ten, digits_decimal, digitsValue_decimal]
    rw [show -(v.natAbs : Int) = v by omega, hsat]
  · obtain ⟨c, rest, heq⟩ := List.exists_cons_of_ne_nil (decimal_ne_nil v.natAbs)
    have hdigit : isDigit c = true := decimal_isDigit v.natAbs c (by rw [heq]; simp)
    rw [heq, strtol_ten_of_isDigit hdigit, ← heq, digits_decimal, digitsValue_decimal]
    rw [show (v.natAbs : Int) = v by omega, hsat]

end Workflow.Lib
