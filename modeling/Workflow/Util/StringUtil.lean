/-
Module: Workflow.Util.StringUtil
Layer: Util
Purpose: `url_decode` of `StringUtil.cc`, and C strings and classes of characters.
Trusted boundary: human-reviewed spec
Main exports: cString, isAlpha, isXdigit, urlDecode
-/
import Workflow.Lib.CString

namespace Workflow.Util

open Workflow.Lib

/-- The C string that begins a buffer: the bytes before the first NUL. -/
def cString (bytes : List Byte) : List Byte :=
  bytes.takeWhile (· ≠ 0)

/-- `isalpha` in the C locale. -/
def isAlpha (c : Byte) : Bool :=
  (65 ≤ c.toNat && c.toNat ≤ 90) || (97 ≤ c.toNat && c.toNat ≤ 122)

/-- `isxdigit` in the C locale. -/
def isXdigit (c : Byte) : Bool :=
  decide (digitValue c < 16)

/-- `__htoi` on two hexadecimal digits. -/
def htoi (hi lo : Byte) : Byte :=
  UInt8.ofNat (digitValue hi * 16 + digitValue lo)

/-- `StringUtil::url_decode`. -/
def urlDecode : List Byte → List Byte
  | [] => []
  | [c] => [if c == 43 then SP else c]
  | [c, d] => (if c == 43 then SP else c) :: urlDecode [d]
  | c :: hi :: lo :: rest =>
      if c == 37 && isXdigit hi && isXdigit lo then htoi hi lo :: urlDecode rest
      else (if c == 43 then SP else c) :: urlDecode (hi :: lo :: rest)

end Workflow.Util
