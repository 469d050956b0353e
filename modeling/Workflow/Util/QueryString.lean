/-
Module: Workflow.Util.QueryString
Layer: Util
Purpose: `URIParser::split_query_strict` and `URIParser::split_query` on top of `StringUtil::split`.
  A `std::map` is a function of its keys.
Trusted boundary: human-reviewed model
Main exports: split, StrMap, splitQueryStrict, splitQuery
-/
import Workflow.Util.StringUtil
import Mathlib.Logic.Function.Basic

namespace Workflow.Util

open Workflow.Lib

/-- `StringUtil::split`: the pieces between the separators. -/
def split (str : List Byte) (sep : Byte) : List (List Byte) :=
  str.splitOn sep

/-- `std::map<std::string, α>`. -/
abbrev StrMap (α : Type) :=
  List Byte → Option α

/-- The first two fields of `split(ele, '=')`; a field that is not there is empty. -/
def keyValue (ele : List Byte) : List Byte × List Byte :=
  match split ele 61 with
  | key :: val :: _ => (key, val)
  | [key] => (key, [])
  | [] => ([], [])

/-- The body of the loop in `split_query_strict`. -/
def addStrict (res : StrMap (List (List Byte))) (ele : List Byte) : StrMap (List (List Byte)) :=
  if ele = [] then res
  else
    let (key, val) := keyValue ele
    if key = [] then res
    else Function.update res key (some ((res key).getD [] ++ [val]))

/-- `URIParser::split_query_strict`. -/
def splitQueryStrict (query : List Byte) : StrMap (List (List Byte)) :=
  if query = [] then fun _ => none
  else (split query 38).foldl addStrict fun _ => none

/-- The body of the loop in `split_query`. -/
def addFirst (res : StrMap (List Byte)) (ele : List Byte) : StrMap (List Byte) :=
  if ele = [] then res
  else
    let (key, val) := keyValue ele
    if key = [] ∨ (res key).isSome then res
    else Function.update res key (some val)

/-- `URIParser::split_query`. -/
def splitQuery (query : List Byte) : StrMap (List Byte) :=
  if query = [] then fun _ => none
  else (split query 38).foldl addFirst fun _ => none

end Workflow.Util
