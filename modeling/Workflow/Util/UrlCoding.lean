/-
Module: Workflow.Util.UrlCoding
Layer: Util
Purpose: The URL coding of `StringUtil.cc`: the two encoders, and `url_decode` as it works in place,
  with a position that is read and a position that is written in the same buffer.
Trusted boundary: human-reviewed model
Main exports: urlEncode, urlEncodeComponent, DecodeCursor, urlDecodeStep, urlDecodeBuffer,
  urlDecodeString
-/
import Workflow.Lib.Loop
import Workflow.Util.StringUtil
import Mathlib.Logic.Function.Basic

namespace Workflow.Util

open Workflow.Lib

/-! ### Encoding -/

/-- `isalnum` in the C locale. -/
def isAlnum (c : Byte) : Bool :=
  isAlpha c || isDigit c

/-- `__itoh`. -/
def itoh (n : Byte) : Byte :=
  if n > 9 then n - 10 + 65 else n + 48

/-- The loop of the encoders; `plain` are the characters that are copied. -/
def urlEncodeWith (plain : Byte → Bool) : List Byte → List Byte
  | [] => []
  | c :: rest =>
      (if c = SP then [43] else if plain c then [c] else [37, itoh (c >>> 4), itoh (c % 16)]) ++
        urlEncodeWith plain rest

/-- The characters that `url_encode_component` copies. -/
def plainComponent (c : Byte) : Bool :=
  isAlnum c || (ascii "-_.!~*'()").contains c

/-- The characters that `url_encode` copies. -/
def plainUrl (c : Byte) : Bool :=
  plainComponent c || (ascii ":/@?#&").contains c

/-- `StringUtil::url_encode`. -/
def urlEncode (str : List Byte) : List Byte :=
  urlEncodeWith plainUrl str

/-- `StringUtil::url_encode_component`. -/
def urlEncodeComponent (str : List Byte) : List Byte :=
  urlEncodeWith plainComponent str

/-! ### Decoding in place -/

/-- Where `url_decode(char *, size_t)` is: the buffer, and the offsets of `dest` and `data` in it. -/
structure DecodeCursor where
  str : Nat → Byte
  dest : Nat
  data : Nat
  len : Nat

namespace DecodeCursor

/-- `*dest = c`. -/
def put (s : DecodeCursor) (c : Byte) : DecodeCursor :=
  { s with str := Function.update s.str s.dest c }

/-- `data++; dest++;` -/
def advance (s : DecodeCursor) : DecodeCursor :=
  { s with data := s.data + 1, dest := s.dest + 1 }

end DecodeCursor

/-- One pass through `while (len--)`, and the NUL behind it. -/
def urlDecodeStep (s : DecodeCursor) : Step DecodeCursor DecodeCursor :=
  if s.len = 0 then .done (s.put 0)
  else
    let s := { s with len := s.len - 1 }
    if s.str s.data = 37 ∧ s.len ≥ 2 ∧ isXdigit (s.str (s.data + 1)) ∧
        isXdigit (s.str (s.data + 2)) then
      let t := s.put (htoi (s.str (s.data + 1)) (s.str (s.data + 2)))
      .next { t with data := t.data + 2, len := t.len - 2 }.advance
    else if s.str s.data = 43 then .next (s.put SP).advance
    else .next (s.put (s.str s.data)).advance

/-- The cursor before the loop. -/
def DecodeCursor.start (str : Nat → Byte) (len : Nat) : DecodeCursor where
  str := str
  dest := 0
  data := 0
  len := len

/-- `url_decode(char *str, size_t len)`: the buffer that it leaves, and the length that it returns. -/
def urlDecodeBuffer (str : Nat → Byte) (len : Nat) : Option ((Nat → Byte) × Nat) :=
  (loop urlDecodeStep (len + 1) (.start str len)).map fun s => (s.str, s.dest)

/-- `url_decode(std::string&)`. The buffer of a string has a NUL behind it. -/
def urlDecodeString (str : List Byte) : Option (List Byte) :=
  if str = [] then some str
  else
    (urlDecodeBuffer (fun i => str.getD i 0) str.length).map fun (buf, sz) =>
      (List.range sz).map buf

end Workflow.Util
