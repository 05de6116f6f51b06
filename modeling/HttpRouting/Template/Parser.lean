import HttpRouting.Template.PathParam
import HttpRouting.Template.QueryParam

/-! Templates: a URL of literal and parameter segments, and a query section. -/

namespace HttpRouting

inductive Segment
  | literal (text : Bytes)
  | param (name : Bytes)
deriving DecidableEq, Repr

structure Template where
  source : Bytes
  urlPath : Bytes
  queryPath : Bytes
  pathParams : Params
  queryParams : Params
  segments : List Segment
deriving DecidableEq

namespace Template

open Byte Bytes

structure Url where
  segments : List Segment := []
  params : Params := ∅
  query : Option Bytes := none

def Url.flush (u : Url) (literal : Bytes) : Url :=
  if literal = [] then u else { u with segments := u.segments ++ [.literal literal] }

def Url.addParam (u : Url) (d : Descriptor) : Url :=
  { u with segments := u.segments ++ [.param d.name], params := u.params.insert d.name d }

def url (u : Url) (literal : Bytes) (s : Bytes) : Scan Url :=
  match s with
  | [] => return u.flush literal
  | b :: rest =>
    if b = leftAngle then
      if literal ≠ [] then
        throw ⟨.paramInsideSegment, (b :: rest).length + literal.length, .span literal.length⟩
      else
        match h : pathParam (b :: rest) with
        | .error e => throw e
        | .ok (d, tail) =>
          if tail.head?.any (fun b => b != slash && b != question) then
            throw (.between .paramInsideSegment (b :: rest) tail)
          else if u.params.contains d.name then
            throw (.quoting .duplicatePathParam (b :: rest) d.name)
          else
            have := length_of_pathParam h
            url (u.addParam d) [] tail
    else if b = backslash && rest.head? = some question then
      url u (literal ++ [question]) rest.tail
    else if b = question then return { u.flush literal with query := some rest }
    else if b = slash then url (u.flush literal) [] rest
    else url u (literal ++ [b]) rest
termination_by s.length
decreasing_by all_goals (simp only [List.length_cons, List.length_tail] at *; omega)

def query (params : Params) (s : Bytes) : Scan Params :=
  match start : skipBlank s with
  | [] => return params
  | b :: rest =>
    have : (b :: rest).length ≤ s.length := start ▸ length_skipBlank_le s
    if b = ampersand then query params rest
    else
      match h : queryParam (b :: rest) with
      | .error e => throw e
      | .ok (d, tail) =>
        have := length_of_queryParam h
        if params.contains d.name then throw (.quoting .duplicateQueryParam (b :: rest) d.name)
        else query (params.insert d.name d) tail
termination_by s.length
decreasing_by all_goals (simp only [List.length_cons] at *; omega)

def scan (source : Bytes) : Scan Template := do
  let u ← url {} [] source
  let queryParams ← query ∅ (u.query.getD [])
  return {
    source
    urlPath := source.take (source.length - (u.query.map (·.length + 1)).getD 0)
    queryPath := u.query.getD []
    pathParams := u.params
    queryParams
    segments := u.segments }

def parse (source : Bytes) : Except TemplateError Template :=
  (scan source).mapError (·.locate source)

end Template

end HttpRouting
