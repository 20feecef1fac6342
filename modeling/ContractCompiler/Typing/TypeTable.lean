/-!
# The type table

The types of the language, numbered in the order in which they were added. A structure may
extend one that was added before it, and then has the members of that one, too.
-/

namespace ContractCompiler

/-- The number of a type in its table. -/
structure TypeId where
  index : Nat
deriving DecidableEq, Repr

/-- Something that has a type: a variable, a member or an element. The flags say that it
cannot be assigned itself, and that nothing inside it can. -/
structure Field where
  type : TypeId
  constReference : Bool
  constMembers : Bool
deriving DecidableEq, Repr

namespace Field

/-- A field that can be assigned. -/
def var (type : TypeId) : Field := ⟨type, false, false⟩

/-- A field that cannot be assigned, nor anything inside it. -/
def constant (type : TypeId) : Field := ⟨type, true, true⟩

/-- A field inside another one: what cannot be assigned there cannot be assigned here. -/
def inside (f owner : Field) : Field :=
  ⟨f.type, f.constReference || owner.constMembers, f.constMembers || owner.constMembers⟩

end Field

/-- How the elements of a type are reached: the type of an index, and what is found there. -/
structure Accessor where
  index : TypeId
  element : Field
deriving DecidableEq, Repr

/-- The members of a structure, by name. -/
structure StructDef where
  parent : Option TypeId
  fields : List (String × Field)
  accessor : Option Accessor
deriving DecidableEq, Repr

/-- Puts a member in its place by name. A member of the same name is replaced. -/
def StructDef.insertField (name : String) (f : Field) :
    List (String × Field) → List (String × Field)
  | [] => [(name, f)]
  | (n, g) :: rest =>
    if name < n then (name, f) :: (n, g) :: rest
    else if name = n then (name, f) :: rest
    else (n, g) :: insertField name f rest

/-- The kinds of types. -/
inductive TypeKind where
  /-- Types of values: integers, byte strings, and either. -/
  | basic
  /-- Types of what is no value: of types, and of nothing. -/
  | special
  | struct (d : StructDef)
  /-- Types with a value for each of some names. -/
  | enum (values : List String)
deriving DecidableEq, Repr

/-- A type and its name. -/
structure TypeDef where
  name : String
  kind : TypeKind
deriving DecidableEq, Repr

/-- The types, by number. -/
structure TypeTable where
  defs : Array TypeDef
deriving DecidableEq, Repr

namespace TypeId

/-- Integers or byte strings. -/
def any : TypeId := ⟨0⟩

/-- Integers. -/
def uint64 : TypeId := ⟨1⟩

/-- Byte strings. -/
def bytes : TypeId := ⟨2⟩

/-- The type of types. -/
def type : TypeId := ⟨3⟩

/-- The type of a call that gives nothing. -/
def void : TypeId := ⟨4⟩

end TypeId

namespace TypeTable

/-- The table with the basic and the special types. -/
def initial : TypeTable :=
  ⟨#[⟨"Any", .basic⟩, ⟨"Uint64", .basic⟩, ⟨"Bytes", .basic⟩, ⟨"Type", .special⟩,
    ⟨"Void", .special⟩]⟩

/-! ## Looking up -/

/-- The type of a number. -/
def get? (t : TypeTable) (id : TypeId) : Option TypeDef :=
  t.defs[id.index]?

/-- The name of a type. -/
def name (t : TypeTable) (id : TypeId) : String :=
  ((t.get? id).map TypeDef.name).getD ""

/-- The last of the first `n` types that has a name. -/
def lookupBelow (t : TypeTable) (name : String) : Nat → Option TypeId
  | 0 => none
  | n + 1 =>
    if t.defs[n]?.any (·.name == name) then some ⟨n⟩ else lookupBelow t name n

/-- The type that was added last under a name. -/
def lookup? (t : TypeTable) (name : String) : Option TypeId :=
  t.lookupBelow name t.defs.size

/-- The definition of a structure, if the type is one. -/
def struct? (t : TypeTable) (id : TypeId) : Option StructDef :=
  match t.get? id with
  | some ⟨_, .struct d⟩ => some d
  | _ => none

/-- The names of the values of an enumeration, if the type is one. -/
def enumValues? (t : TypeTable) (id : TypeId) : Option (List String) :=
  match t.get? id with
  | some ⟨_, .enum values⟩ => some values
  | _ => none

/-- Whether a name is one of an array type. -/
def isArrayName (name : String) : Bool :=
  ['[', ']'].isSuffixOf name.toList

/-- The names of the types that a source can name: not those of arrays, nor special ones. -/
def sourceNames (t : TypeTable) : List String :=
  (t.defs.toList.filter fun d => !isArrayName d.name && d.kind != .special).map TypeDef.name

/-! ## Adding -/

/-- Adds a type. -/
def add (name : String) (kind : TypeKind) : StateM TypeTable TypeId := fun t =>
  (⟨t.defs.size⟩, ⟨t.defs.push ⟨name, kind⟩⟩)

/-- Adds a structure. Of two members with one name the later counts. -/
def addStruct (name : String) (parent : Option TypeId) (fields : List (String × Field)) :
    StateM TypeTable TypeId :=
  let byName := fields.foldl (fun out (n, f) => StructDef.insertField n f out) []
  add name (.struct ⟨parent, byName, none⟩)

/-- Adds an enumeration. -/
def addEnum (name : String) (values : List String) : StateM TypeTable TypeId :=
  add name (.enum values)

/-- Gives a structure elements. Other types are left alone. -/
def setAccessor (id index : TypeId) (element : Field) : StateM TypeTable Unit :=
  modify fun t =>
    match t.get? id with
    | some ⟨name, .struct d⟩ =>
      ⟨t.defs.setIfInBounds id.index
        ⟨name, .struct { d with accessor := some ⟨index, element⟩ }⟩⟩
    | _ => t

/-- The type of arrays of some elements, added if there is none of its name yet. -/
def arrayOf (elem index : TypeId) : StateM TypeTable TypeId := do
  let t ← get
  let arrayName := t.name elem ++ "[]"
  match t.lookup? arrayName with
  | some id => return id
  | none =>
    let id ← addStruct arrayName none [("len", .constant .uint64)]
    setAccessor id index (.var elem)
    return id

/-! ## Structures -/

/-- The type that a structure extends. -/
def parent? (t : TypeTable) (id : TypeId) : Option TypeId :=
  (t.struct? id).bind StructDef.parent

/-- A type and all that it extends, nearest first. A structure can only extend a type with a
smaller number. -/
def ancestry (t : TypeTable) (id : TypeId) : List TypeId :=
  match t.parent? id with
  | some p => if p.index < id.index then id :: t.ancestry p else [id]
  | none => [id]
termination_by id.index

/-- The member of a type: its own, or that of the nearest type it extends. -/
def member? (t : TypeTable) (id : TypeId) (name : String) : Option Field :=
  (t.ancestry id).findSome? fun a => (t.struct? a).bind (·.fields.lookup name)

/-- How the elements of a type are reached. -/
def accessor? (t : TypeTable) (id : TypeId) : Option Accessor :=
  (t.struct? id).bind StructDef.accessor

/-! ## Relations -/

/-- Whether a type is one of integers, byte strings or either. -/
def isBasic (id : TypeId) : Bool :=
  id == .any || id == .uint64 || id == .bytes

/-- Whether a type is an enumeration. -/
def isEnum (t : TypeTable) (id : TypeId) : Bool :=
  (t.enumValues? id).isSome

/-- Whether a type is one of values. -/
def isValue (t : TypeTable) (id : TypeId) : Bool :=
  isBasic id || t.isEnum id

/-- Whether a value of the type may be used as an integer. -/
def isInteger (id : TypeId) : Bool :=
  id == .uint64 || id == .any

/-- Whether values of two types can stand for each other. -/
def isCompatible (t : TypeTable) (a b : TypeId) : Bool :=
  if a = .any then t.isValue b
  else if b = .any then t.isValue a
  else a == b

/-- Whether something of type `source` can be used as `target`: the same type, one that
`source` extends, or any. -/
def isAssignableFrom (t : TypeTable) (target source : TypeId) : Bool :=
  target == .any || (t.ancestry source).contains target

end TypeTable

end ContractCompiler
