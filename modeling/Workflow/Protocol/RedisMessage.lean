/-
Module: Workflow.Protocol.RedisMessage
Layer: Protocol
Purpose: `RedisMessage.cc`: values as trees, their transformation into C replies and back, and the
  encoding of a reply. A reply that is encoded points at the bytes of its strings; one that was parsed
  holds offsets into the message. The functions recurse over the nesting of arrays, and the call stack
  is taken as unlimited.
Trusted boundary: human-reviewed model
Main exports: RedisValue, RedisValue.set, RedisValue.transform, encodeReply, setResult, encode
-/
import Workflow.Protocol.RedisParser
import Workflow.Util.EncodeStream

namespace Workflow.Redis

open Workflow.Lib Workflow.Util

/-- `RedisValue`. -/
inductive RedisValue where
  | nil
  | int (intv : Int)
  | string (strv : List Byte)
  | status (strv : List Byte)
  | error (strv : List Byte)
  | array (values : List RedisValue)

/-! ### Replies to be encoded -/

/-- `redis_reply_t` on the side that encodes: `str` is what the pointer points at. -/
structure OutReply where
  type : ReplyType
  integer : Int
  len : Nat
  str : List Byte
  element : List OutReply

/-- `redis_reply_init`. -/
def outReplyInit : OutReply where
  type := .nil
  integer := 0
  len := 0
  str := []
  element := []

mutual

/-- `RedisValue::transform`. -/
def RedisValue.transform : RedisValue → OutReply → OutReply
  | .nil, r => { r with type := .nil }
  | .int intv, r => { r with type := .integer, integer := intv }
  | .array values, r => { r with type := .array, element := transformAll values }
  | .status strv, r => { r with type := .status, len := strv.length, str := strv }
  | .error strv, r => { r with type := .error, len := strv.length, str := strv }
  | .string strv, r => { r with type := .string, len := strv.length, str := strv }

/-- The elements of an array, each of them made by `redis_reply_init`. -/
def RedisValue.transformAll : List RedisValue → List OutReply
  | [] => []
  | v :: values => v.transform outReplyInit :: transformAll values

end

mutual

/-- `RedisMessage::encode_reply`. -/
def encodeReply : OutReply → EncodeStream → EncodeStream
  | ⟨type, integer, len, str, element⟩, s =>
      match type with
      | .status => ((s.appendNocopy (ascii "+")).appendNocopy (str.take len)).appendNocopy [CR, LF]
      | .error => ((s.appendNocopy (ascii "-")).appendNocopy (str.take len)).appendNocopy [CR, LF]
      | .nil => s.appendNocopy (ascii "$-1" ++ [CR, LF])
      | .integer => ((s.appendNocopy (ascii ":")).appendInt integer).appendNocopy [CR, LF]
      | .string =>
          let head := ((s.appendNocopy (ascii "$")).appendSize len).appendNocopy [CR, LF]
          (head.appendNocopy (str.take len)).appendNocopy [CR, LF]
      | .array =>
          encodeAll element
            (((s.appendNocopy (ascii "*")).appendSize element.length).appendNocopy [CR, LF])

/-- The loop over the elements. -/
def encodeAll : List OutReply → EncodeStream → EncodeStream
  | [], s => s
  | r :: rest, s => encodeAll rest (encodeReply r s)

end

/-- `RedisResponse::set_result`. -/
def setResult (value : RedisValue) : OutReply :=
  value.transform outReplyInit

/-- `ENCODE_IOV_MAX`, the number of vectors that `Communicator` passes to `encode`. -/
def encodeIovMax : Nat := 8192

/-- `RedisMessage::encode` of a response: the bytes that the vectors point at. -/
def encode (value : RedisValue) : List Byte :=
  (encodeReply (setResult value) (EncodeStream.reset encodeIovMax)).text

/-! ### Replies that were parsed -/

mutual

/-- `RedisValue::set`, after `__redis_parse_done` has made pointers into the message of the
offsets. -/
def RedisValue.set (msgbuf : List Byte) : Reply → RedisValue
  | ⟨type, integer, len, str, element⟩ =>
      match type with
      | .integer => .int integer
      | .error => .error ((msgbuf.drop str).take len)
      | .status => .status ((msgbuf.drop str).take len)
      | .string => .string ((msgbuf.drop str).take len)
      | .array => .array (setAll msgbuf element)
      | .nil => .nil

def RedisValue.setAll (msgbuf : List Byte) : List Reply → List RedisValue
  | [] => []
  | r :: rest => set msgbuf r :: setAll msgbuf rest

end

end Workflow.Redis
