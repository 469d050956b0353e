/-
Module: Workflow.Protocol.HttpHeaderStore
Layer: Protocol
Purpose: The header store of `http_parser.c` with its line buffers: `http_parser_add_header`,
  `http_parser_set_header` and the header cursor. A line keeps the two lengths as `int` and a buffer
  that `set` reuses for a value that is not longer than the current one. `none` is an access outside
  a buffer; allocation succeeds throughout. Beside it stands what the store is for: an ordered list of
  headers.
Trusted boundary: human-reviewed spec
Main exports: BufferedLine, addHeader, setHeader, cursorNext, cursorFind, HeaderOp, HeaderStore,
  HeaderStore.perform, HeaderList, HeaderList.perform
-/
import Workflow.Protocol.HttpParser

namespace Workflow.Http

open Workflow.Lib

/-- `struct __header_line`. `buf` is the allocated buffer, its length the number of bytes allocated. -/
structure BufferedLine where
  nameLen : Int
  valueLen : Int
  buf : List Byte
deriving Repr, DecidableEq

/-- `malloc(n)`. What the memory held does not matter: every byte is written before it is read. -/
def malloc (n : Nat) : List Byte :=
  List.replicate n 0

/-- `memcpy(buf + off, bytes, len)`. -/
def memcpy (buf : List Byte) (off : Nat) (bytes : List Byte) : Option (List Byte) :=
  if off + bytes.length ≤ buf.length then
    some (buf.take off ++ bytes ++ buf.drop (off + bytes.length))
  else none

/-- The `len` bytes at `buf + off`. -/
def memread (buf : List Byte) (off len : Nat) : Option (List Byte) :=
  if off + len ≤ buf.length then some ((buf.drop off).take len) else none

/-- `strncasecmp(a, b, n) == 0`: equal up to case in the first `n` bytes, or up to a NUL. -/
def strncasecmpEq : Nat → List Byte → List Byte → Bool
  | 0, _, _ => true
  | n + 1, a :: as, b :: bs => tolower a == tolower b && (a == 0 || strncasecmpEq n as bs)
  | _ + 1, _, _ => false

def colonSpace : List Byte := [58, SP]
def crlf : List Byte := [CR, LF]

/-- The value and the line end behind a name that is in place. -/
def writeValue (buf : List Byte) (nameLen : Nat) (value : List Byte) : Option (List Byte) := do
  let buf ← memcpy buf (nameLen + 2) value
  memcpy buf (nameLen + 2 + value.length) crlf

/-- A new buffer for a line, with the name and the separator in place. -/
def writeName (name : List Byte) (valueLen : Nat) : Option (List Byte) := do
  let buf ← memcpy (malloc (name.length + valueLen + 4)) 0 name
  memcpy buf name.length colonSpace

/-- `http_parser_add_header`. -/
def addHeader (name value : List Byte) (lines : List BufferedLine) : Option (List BufferedLine) := do
  let buf ← writeName name value.length
  let buf ← writeValue buf name.length value
  pure (lines ++ [{ nameLen := toInt name.length, valueLen := toInt value.length, buf := buf }])

/-- `line->name_len == name_len && strncasecmp(line->buf, name, name_len) == 0`. -/
def BufferedLine.hasName (name : List Byte) (line : BufferedLine) : Bool :=
  toSize line.nameLen == name.length && strncasecmpEq name.length line.buf name

/-- The body of the loop in `http_parser_set_header` at the line that has the name. -/
def BufferedLine.setValue (name value : List Byte) (line : BufferedLine) : Option BufferedLine := do
  let buf ← if value.length > toSize line.valueLen then writeName name value.length else some line.buf
  let buf ← writeValue buf name.length value
  pure { line with valueLen := toInt value.length, buf := buf }

/-- The first element of a list that passes a test, with its place. -/
def firstWhere {α : Type} (test : α → Bool) : List α → Option (Nat × α)
  | [] => none
  | x :: rest =>
      if test x then some (0, x) else (firstWhere test rest).map fun (i, y) => (i + 1, y)

/-- `http_parser_set_header`: the first line with the name gets the value, or a line is added. -/
def setHeader (name value : List Byte) (lines : List BufferedLine) : Option (List BufferedLine) :=
  match firstWhere (BufferedLine.hasName name) lines with
  | some (i, line) => do
      let line ← line.setValue name value
      pure (lines.set i line)
  | none => addHeader name value lines

/-! ### The cursor

`cursor->next` is the number of the line it points to; 0 is the list head. Lines are never removed. -/

/-- `http_header_cursor_next`: the new cursor, and the bytes of name and value unless it is at the
end. -/
def cursorNext (lines : List BufferedLine) (next : Nat) :
    Option (Nat × Option (List Byte × List Byte)) :=
  match lines[next]? with
  | none => some (next, none)
  | some line => do
      let name ← memread line.buf 0 (toSize line.nameLen)
      let value ← memread line.buf (toSize line.nameLen + 2) (toSize line.valueLen)
      pure (next + 1, some (name, value))

/-- `http_header_cursor_find`: the value of the next line with the name. Without one the cursor stops
at the last line. -/
def cursorFind (name : List Byte) (lines : List BufferedLine) (next : Nat) :
    Option (Nat × Option (List Byte)) :=
  match firstWhere (BufferedLine.hasName name) (lines.drop next) with
  | none => some (max next lines.length, none)
  | some (i, line) => do
      let value ← memread line.buf (name.length + 2) (toSize line.valueLen)
      pure (next + i + 1, some value)

/-! ### The store and its operations -/

/-- The calls on a store and its cursors, which are named by `κ`. -/
inductive HeaderOp (κ : Type) where
  | add (name value : List Byte)
  | set (name value : List Byte)
  | next (cursor : κ)
  | find (cursor : κ) (name : List Byte)
  | rewind (cursor : κ)
deriving Repr

/-- What a call gives back: nothing, a header, a value, or that there is none. -/
inductive HeaderAnswer where
  | done
  | header (name value : List Byte)
  | value (value : List Byte)
  | absent
deriving Repr, DecidableEq

variable {κ : Type} [DecidableEq κ]

/-- `header_list` and the cursors over it. -/
structure HeaderStore (κ : Type) where
  lines : List BufferedLine
  cursor : κ → Nat

/-- The store after `http_parser_init` and `http_header_cursor_init`. -/
def HeaderStore.init : HeaderStore κ :=
  { lines := [], cursor := fun _ => 0 }

def HeaderStore.moveTo (s : HeaderStore κ) (k : κ) (next : Nat) : HeaderStore κ :=
  { s with cursor := fun j => if j = k then next else s.cursor j }

/-- One call on the store. -/
def HeaderStore.perform (s : HeaderStore κ) : HeaderOp κ → Option (HeaderStore κ × HeaderAnswer)
  | .add name value => do
      let lines ← addHeader name value s.lines
      pure ({ s with lines := lines }, .done)
  | .set name value => do
      let lines ← setHeader name value s.lines
      pure ({ s with lines := lines }, .done)
  | .next k => do
      let (next, found) ← cursorNext s.lines (s.cursor k)
      match found with
      | some (name, value) => pure (s.moveTo k next, .header name value)
      | none => pure (s.moveTo k next, .absent)
  | .find k name => do
      let (next, found) ← cursorFind name s.lines (s.cursor k)
      match found with
      | some value => pure (s.moveTo k next, .value value)
      | none => pure (s.moveTo k next, .absent)
  | .rewind k => pure (s.moveTo k 0, .done)

/-! ### What the store is for -/

/-- An ordered list of headers, and the number of headers that each cursor has passed. -/
structure HeaderList (κ : Type) where
  headers : List HeaderLine
  cursor : κ → Nat

def HeaderList.init : HeaderList κ :=
  { headers := [], cursor := fun _ => 0 }

def HeaderList.moveTo (l : HeaderList κ) (k : κ) (next : Nat) : HeaderList κ :=
  { l with cursor := fun j => if j = k then next else l.cursor j }

/-- Names are compared without regard to case. -/
def HeaderLine.named (name : List Byte) (line : HeaderLine) : Bool :=
  strcasecmpEq line.name name

/-- A new value for a header. One that is longer than the old value brings the spelling of its name
along. -/
def HeaderLine.withValue (name value : List Byte) (line : HeaderLine) : HeaderLine :=
  { name := if line.value.length < value.length then name else line.name, value := value }

/-- Replace the value of the first header with the name, in place, or append a header. -/
def replaceValue (name value : List Byte) (headers : List HeaderLine) : List HeaderLine :=
  match firstWhere (HeaderLine.named name) headers with
  | some (i, line) => headers.set i (line.withValue name value)
  | none => headers ++ [{ name := name, value := value }]

/-- One call on the list of headers. -/
def HeaderList.perform (l : HeaderList κ) : HeaderOp κ → HeaderList κ × HeaderAnswer
  | .add name value =>
      ({ l with headers := l.headers ++ [{ name := name, value := value }] }, .done)
  | .set name value => ({ l with headers := replaceValue name value l.headers }, .done)
  | .next k =>
      match l.headers[l.cursor k]? with
      | some line => (l.moveTo k (l.cursor k + 1), .header line.name line.value)
      | none => (l, .absent)
  | .find k name =>
      match firstWhere (HeaderLine.named name) (l.headers.drop (l.cursor k)) with
      | some (i, line) => (l.moveTo k (l.cursor k + i + 1), .value line.value)
      | none => (l.moveTo k (max (l.cursor k) l.headers.length), .absent)
  | .rewind k => (l.moveTo k 0, .done)

end Workflow.Http
