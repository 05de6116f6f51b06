import HttpRouting.Adapter

namespace HttpRouting.Scripted

inductive Spelling
  | colon | typed | braces
deriving DecidableEq, Repr

def Spelling.param (s : Spelling) (name : Bytes) (d : Descriptor) : Bytes :=
  match s with
  | colon => Byte.colon :: name
  | braces => Byte.leftBrace :: name ++ [Byte.rightBrace]
  | typed =>
    let types := d.types.flatMap (fun t => Byte.colon :: ascii t.name)
    let pattern := match d.pattern with
      | none => []
      | some p => Byte.leftParen :: p.source ++ [Byte.rightParen]
    Byte.leftBrace :: name ++ types ++ pattern ++ [Byte.rightBrace]

variable {σ : Type}

def transport (spelling : Option Spelling) (takesRoutes : Bool) : Adapter σ where
  spellParam :=
    match spelling with
    | some s => fun name d => return s.param name d
    | none => ({} : Adapter σ).spellParam
  register := if takesRoutes then fun _ => return () else ({} : Adapter σ).register

end HttpRouting.Scripted
