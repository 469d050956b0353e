/-
Module: Workflow.Util.URIParser
Layer: Util
Purpose: `URIParser::parse` of `URIParser.cc`. One scan over a NUL-terminated text finds the begin and
  end offsets of the seven components, the characters of four of them are checked against the
  tables, and the components are copied into a `ParsedURI`. Offsets are natural numbers here and
  `int` in the source: the model is that of the code for texts shorter than `2 ^ 31` bytes, in which
  they do not overflow (`Scan.Passes.fits`). Allocation succeeds throughout, so `URI_STATE_ERROR`
  does not occur.
Trusted boundary: human-reviewed spec
Main exports: validChar, ParsedURI, Scan, scanUserinfo, scanBracket, scanStep, finishScan, parseText,
  parse
-/
import Workflow.Util.StringUtil
import Mathlib.Logic.Function.Basic

namespace Workflow.Uri

open Workflow.Lib
open Workflow.Util

/-! ### Character tables -/

/-- `sep`. -/
def sep : List Byte := [58, 47, 63, 35]

/-- Entries 0 to 127 of `valid_char[0]`. The entries from 128 on are 0 in all seven tables. -/
def schemeTable : List Nat :=
   [0, 0, 0, 0, 0, 0, 0, 0, 0, 0, 0, 0, 0, 0, 0, 0,
    0, 0, 0, 0, 0, 0, 0, 0, 0, 0, 0, 0, 0, 0, 0, 0,
    0, 0, 0, 0, 0, 0, 0, 0, 0, 0, 0, 1, 0, 1, 1, 0,
    1, 1, 1, 1, 1, 1, 1, 1, 1, 1, 0, 0, 0, 0, 0, 0,
    0, 1, 1, 1, 1, 1, 1, 1, 1, 1, 1, 1, 1, 1, 1, 1,
    1, 1, 1, 1, 1, 1, 1, 1, 1, 1, 1, 0, 0, 0, 0, 0,
    0, 1, 1, 1, 1, 1, 1, 1, 1, 1, 1, 1, 1, 1, 1, 1,
    1, 1, 1, 1, 1, 1, 1, 1, 1, 1, 1, 0, 0, 0, 0, 0]

/-- `valid_char[1]` and `valid_char[2]`, which are equal. -/
def hostTable : List Nat :=
   [0, 0, 0, 0, 0, 0, 0, 0, 0, 0, 0, 0, 0, 0, 0, 0,
    0, 0, 0, 0, 0, 0, 0, 0, 0, 0, 0, 0, 0, 0, 0, 0,
    0, 1, 0, 0, 1, 1, 1, 1, 1, 1, 1, 1, 1, 1, 1, 0,
    1, 1, 1, 1, 1, 1, 1, 1, 1, 1, 1, 1, 0, 1, 0, 0,
    0, 1, 1, 1, 1, 1, 1, 1, 1, 1, 1, 1, 1, 1, 1, 1,
    1, 1, 1, 1, 1, 1, 1, 1, 1, 1, 1, 0, 0, 0, 0, 1,
    0, 1, 1, 1, 1, 1, 1, 1, 1, 1, 1, 1, 1, 1, 1, 1,
    1, 1, 1, 1, 1, 1, 1, 1, 1, 1, 1, 0, 0, 0, 1, 0]

/-- `valid_char[3]`. -/
def portTable : List Nat :=
   [0, 0, 0, 0, 0, 0, 0, 0, 0, 0, 0, 0, 0, 0, 0, 0,
    0, 0, 0, 0, 0, 0, 0, 0, 0, 0, 0, 0, 0, 0, 0, 0,
    0, 0, 0, 0, 0, 0, 0, 0, 0, 0, 0, 0, 0, 0, 0, 0,
    1, 1, 1, 1, 1, 1, 1, 1, 1, 1, 0, 0, 0, 0, 0, 0,
    0, 0, 0, 0, 0, 0, 0, 0, 0, 0, 0, 0, 0, 0, 0, 0,
    0, 0, 0, 0, 0, 0, 0, 0, 0, 0, 0, 0, 0, 0, 0, 0,
    0, 0, 0, 0, 0, 0, 0, 0, 0, 0, 0, 0, 0, 0, 0, 0,
    0, 0, 0, 0, 0, 0, 0, 0, 0, 0, 0, 0, 0, 0, 0, 0]

/-- `valid_char[4]`. -/
def pathTable : List Nat :=
   [0, 0, 0, 0, 0, 0, 0, 0, 0, 0, 0, 0, 0, 0, 0, 0,
    0, 0, 0, 0, 0, 0, 0, 0, 0, 0, 0, 0, 0, 0, 0, 0,
    0, 1, 0, 0, 1, 1, 1, 1, 1, 1, 1, 1, 1, 1, 1, 1,
    1, 1, 1, 1, 1, 1, 1, 1, 1, 1, 1, 1, 0, 1, 0, 0,
    1, 1, 1, 1, 1, 1, 1, 1, 1, 1, 1, 1, 1, 1, 1, 1,
    1, 1, 1, 1, 1, 1, 1, 1, 1, 1, 1, 0, 0, 0, 0, 1,
    0, 1, 1, 1, 1, 1, 1, 1, 1, 1, 1, 1, 1, 1, 1, 1,
    1, 1, 1, 1, 1, 1, 1, 1, 1, 1, 1, 0, 0, 0, 1, 0]

/-- `valid_char[5]` and `valid_char[6]`, which are equal. -/
def queryTable : List Nat :=
   [0, 0, 0, 0, 0, 0, 0, 0, 0, 0, 0, 0, 0, 0, 0, 0,
    0, 0, 0, 0, 0, 0, 0, 0, 0, 0, 0, 0, 0, 0, 0, 0,
    0, 1, 0, 0, 1, 1, 1, 1, 1, 1, 1, 1, 1, 1, 1, 1,
    1, 1, 1, 1, 1, 1, 1, 1, 1, 1, 1, 1, 0, 1, 0, 1,
    1, 1, 1, 1, 1, 1, 1, 1, 1, 1, 1, 1, 1, 1, 1, 1,
    1, 1, 1, 1, 1, 1, 1, 1, 1, 1, 1, 0, 0, 0, 0, 1,
    0, 1, 1, 1, 1, 1, 1, 1, 1, 1, 1, 1, 1, 1, 1, 1,
    1, 1, 1, 1, 1, 1, 1, 1, 1, 1, 1, 0, 0, 0, 1, 0]

/-- `valid_char`, with the components numbered as in the source: scheme, userinfo, host, port, path,
query, fragment. -/
def validTable : Nat → List Nat
  | 0 => schemeTable
  | 1 => hostTable
  | 2 => hostTable
  | 3 => portTable
  | 4 => pathTable
  | 5 => queryTable
  | 6 => queryTable
  | _ => []

/-- `valid_char[i][(unsigned char)c]`. -/
def validChar (i : Nat) (c : Byte) : Bool :=
  (validTable i).getD c.toNat 0 != 0

/-! ### `ParsedURI` -/

inductive UriState where
  | init
  | success
  | invalid
  | error
deriving Repr, DecidableEq

/-- `class ParsedURI`: C strings, `none` for NULL. -/
structure ParsedURI where
  scheme : Option (List Byte)
  userinfo : Option (List Byte)
  host : Option (List Byte)
  port : Option (List Byte)
  path : Option (List Byte)
  query : Option (List Byte)
  fragment : Option (List Byte)
  state : UriState
  error : Int
deriving Repr, DecidableEq

/-! ### The scan -/

/-- `str[i]`, which is NUL at the end of the text. -/
def charAt (str : List Byte) (i : Nat) : Byte :=
  str.getD i 0

/-- `while (p(str[cur])) cur++`, for a `p` that NUL fails. -/
def skipWhile (p : Byte → Bool) (str : List Byte) (cur : Nat) : Nat :=
  cur + ((str.drop cur).takeWhile p).length

/-- The local variables of `parse`: `st`, `ed`, `cur`, `last`, `idx` and `is_ipv6`. The offsets are
`int` in the source. -/
structure Scan where
  st : Nat → Nat
  ed : Nat → Nat
  cur : Nat
  last : Nat
  idx : Nat
  isIpv6 : Bool

/-- `st[i] = begin; ed[i] = end`. -/
def Scan.setSpan (s : Scan) (i first beyond : Nat) : Scan :=
  { s with st := Function.update s.st i first, ed := Function.update s.ed i beyond }

/-- The loop that looks for `@`. It stops at the end of the host; `i` is the offset of the bytes that
are left. -/
def scanUserinfo (s : Scan) : List Byte → Nat → Scan
  | [], _ => s
  | c :: rest, i =>
      if c == 47 || c == 63 || c == 35 then s.setSpan 1 s.cur s.cur
      else if c == 64 then { s.setSpan 1 s.cur i with cur := i + 1 }
      else scanUserinfo s rest (i + 1)

/-- A host in brackets, which must be followed by a separator or by the end. Any other host begins at
`cur`. -/
def scanBracket (str : List Byte) (s : Scan) : Option Scan :=
  if charAt str s.cur == 91 then
    let first := s.cur + 1
    let close := skipWhile (· ≠ 93) str first
    if charAt str close != 93 then none
    else if charAt str (close + 1) != 0 && !sep.contains (charAt str (close + 1)) then none
    else some { s.setSpan 2 first close with cur := close + 1, isIpv6 := true }
  else some { s with last := s.cur }

/-- The inner loop `for (int i = idx; i < 4; i++)`: the first separator from `idx` on that is `c`. -/
def sepIndex (idx : Nat) (c : Byte) : Option Nat :=
  (List.range 4).find? fun i => idx ≤ i && sep.getD i 0 == c

/-- One pass of the main loop, at the byte `c`. -/
def scanStep (s : Scan) (c : Byte) : Scan :=
  match sepIndex s.idx c with
  | none => { s with cur := s.cur + 1 }
  | some i =>
      let t := if s.isIpv6 then { s with isIpv6 := false } else s.setSpan (s.idx + 2) s.last s.cur
      { t with
        idx := i + 1
        last := if c == 47 then s.cur else s.cur + 1
        cur := s.cur + 1 }

/-- The component that is open at the end of the text. -/
def finishScan (s : Scan) : Scan :=
  if s.last < s.cur && !s.isIpv6 then s.setSpan (s.idx + 2) s.last s.cur else s

/-- `str[st[i]..ed[i])`. -/
def Scan.span (str : List Byte) (s : Scan) (i : Nat) : List Byte :=
  (str.drop (s.st i)).take (s.ed i - s.st i)

/-! ### The components -/

/-- The test on the first three bytes of a host: `%2F` or `%2f`. -/
def escapedSlash (host : List Byte) : Bool :=
  match host with
  | a :: b :: c :: _ => a == 37 && b == 50 && (c == 70 || c == 102)
  | _ => false

/-- What `dst[i]` is left pointing at, for every component but the host. -/
def stored (str : List Byte) (s : Scan) (i : Nat) : Option (List Byte) :=
  if s.st i < s.ed i then some (s.span str i) else none

/-- What `dst[2]` is left pointing at: a host that begins with an escaped slash is decoded. -/
def storedHost (str : List Byte) (s : Scan) : Option (List Byte) :=
  (stored str s 2).map fun host => if escapedSlash host then cString (urlDecode host) else host

/-- `URIParser::parse(const char *, ParsedURI&)` on the bytes before the NUL. The result is the return
value and the `ParsedURI` left behind. -/
def parseText (str : List Byte) (uri : ParsedURI) : Int × ParsedURI :=
  let invalid := (-1, { uri with state := .invalid })
  if !isAlpha (charAt str 0) then invalid
  else
    let cur := skipWhile (validChar 0) str 1
    if !(charAt str cur == 58 && charAt str (cur + 1) == 47 && charAt str (cur + 2) == 47) then
      invalid
    else
      let start : Scan :=
        { st := fun _ => 0
          ed := Function.update (fun _ => 0) 0 cur
          cur := cur + 3
          last := cur + 3
          idx := 0
          isIpv6 := false }
      match scanBracket str (scanUserinfo start (str.drop (cur + 3)) (cur + 3)) with
      | none => invalid
      | some s =>
          let s := finishScan ((str.drop s.cur).foldl scanStep s)
          if !([1, 2, 3, 4].all fun i => (s.span str i).all (validChar i)) then invalid
          else
            (0,
              { scheme := stored str s 0
                userinfo := stored str s 1
                host := storedHost str s
                port := stored str s 3
                path := stored str s 4
                query := stored str s 5
                fragment := stored str s 6
                state := .success
                error := uri.error })

/-- `URIParser::parse`: the text ends at its first NUL. -/
def parse (str : List Byte) (uri : ParsedURI) : Int × ParsedURI :=
  parseText (cString str) uri

end Workflow.Uri
