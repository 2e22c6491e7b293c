import FluentBuilders.Builder.Spec
import FluentBuilders.Json.Display

/-!
# Builder/Live — builders at work

A live builder has the methods of its class and holds one object of a store.  Objects are shared:
what is written through one builder is seen through every other that holds the same object.  Beside
its methods a builder answers to a few names of its own, with which it can be begun anew, shown, or
asked something that changes nothing.
-/

namespace FluentBuilders

/-! ## Objects -/

/-- **An object**: its keys with their values, in the order in which the keys came first. -/
abbrev Fields := List (String × Json)

/-- **The objects of a run**, each known by its place. -/
abbrev ObjectStore := List Fields

/-- Which object of a store. -/
abbrev ObjectId := Nat

namespace ObjectStore

/-- The content of an object. -/
def content (s : ObjectStore) (id : ObjectId) : Fields := s.getD id []

/-- **A key of an object written.** -/
def write (s : ObjectStore) (id : ObjectId) (key : String) (value : Json) : ObjectStore :=
  s.modify id (Pairs.put key value)

/-- A new object with the given content. -/
def add (s : ObjectStore) (fields : Fields) : ObjectStore × ObjectId := (s ++ [fields], s.length)

end ObjectStore

/-! ## Builders -/

/-- **What a builder holds**: an object of the store, or a value that is no object, to which nothing
can be written. -/
inductive Held where
  | object (id : ObjectId)
  | value (json : Json)

/-- **A live builder.** -/
structure LiveBuilder where
  spec : BuilderSpec
  held : Held

/-- Why a call fails. -/
inductive CallError where
  | unknownMethod
  | wrongArgumentCount
  /-- The name stands for something that cannot be called. -/
  | notCallable
  /-- What is held has no keys that could be written. -/
  | notAnObject
  /-- What should be shown is no text. -/
  | notAText
  /-- The class cannot be made: one of its methods has a name that classes keep for themselves. -/
  | reservedName
  /-- The class cannot be made: its own name has a NUL in it. -/
  | invalidClassName
  deriving DecidableEq, Repr

/-- **What a call gives back**: the builder, what it holds, or anything else. -/
inductive CallResult where
  | builder
  | held
  | other
  deriving DecidableEq, Repr

/-- **What a name of a builder stands for.** -/
inductive Attribute where
  | method (m : MethodSpec)
  /-- Begins anew, with what is given or with an empty object. -/
  | restart
  /-- Gives something that changes nothing, for the arguments that it takes. -/
  | inquiry (takes : List Json → Bool)
  /-- Gives what a name stands for. -/
  | lookup
  /-- Something that cannot be called, with any arguments. -/
  | constant

/-- What a builder holds goes by this name, whatever its methods are called. -/
def heldName : String := "_obj"

/-- The names that begin a builder.  A method of such a name is in the way of making one. -/
def beginningNames : List String := ["__new__", "__init__"]

/-- The name under which what a builder holds is set. -/
def settingName : String := "__setattr__"

/-- The name under which a builder is shown. -/
def showName : String := "__repr__"

/-- The name under which a class lists what its builders hold. -/
def slotsName : String := "__slots__"

/-- The names that classes keep for themselves. -/
def reservedNames : List String := [slotsName, "__qualname__", "__classcell__"]

/-! ### The arguments of an inquiry -/

/-- No argument. -/
def takesNone (arguments : List Json) : Bool := arguments.isEmpty

/-- One argument. -/
def takesOne (arguments : List Json) : Bool := arguments.length == 1

/-- At most one argument. -/
def takesAtMostOne (arguments : List Json) : Bool := arguments.length ≤ 1

/-- A whole number or a truth value. -/
def takesWhole : List Json → Bool
  | [.int _] | [.bool _] => true
  | _ => false

/-- The empty text. -/
def takesEmptyText : List Json → Bool
  | [.string text] => text == ""
  | _ => false

/-- **The names that every builder answers to**, unless a method of its class has the name. -/
def commonAttributes : List (String × Attribute) :=
  [("spec", .constant), ("__init__", .restart), ("__new__", .constant),
    (showName, .inquiry takesNone), ("__str__", .inquiry takesNone),
    ("__hash__", .inquiry takesNone), ("__sizeof__", .inquiry takesNone),
    ("__dir__", .inquiry takesNone), ("__reduce__", .inquiry takesNone),
    ("__getstate__", .inquiry takesNone), ("__init_subclass__", .inquiry takesNone),
    ("__class__", .inquiry takesAtMostOne), ("__eq__", .inquiry takesOne),
    ("__ne__", .inquiry takesOne), ("__lt__", .inquiry takesOne), ("__le__", .inquiry takesOne),
    ("__gt__", .inquiry takesOne), ("__ge__", .inquiry takesOne),
    ("__reduce_ex__", .inquiry takesWhole), ("__format__", .inquiry takesEmptyText),
    ("__subclasshook__", .inquiry fun _ => true), ("__getattribute__", .lookup),
    (settingName, .constant), ("__delattr__", .constant), ("__dict__", .constant),
    ("__doc__", .constant), ("__module__", .constant), ("__weakref__", .constant),
    ("__annotations__", .constant)]

/-- **The method of a name** in a class: of several the last. -/
def BuilderSpec.method? (b : BuilderSpec) (name : String) : Option MethodSpec :=
  (b.builderClass.methods.filter (·.name == name)).getLast?

/-- **Why the class cannot be made**, if it cannot: a method has a name that is kept, or its own name
is no name.  What it lists is looked at before its name, all else after it. -/
def BuilderSpec.classError? (b : BuilderSpec) : Option CallError :=
  if (b.method? slotsName).isSome then some .reservedName
  else if b.className.toList.contains '\x00' then some .invalidClassName
  else if reservedNames.any fun name => (b.method? name).isSome then some .reservedName
  else none

namespace LiveBuilder

/-- The value that a builder holds. -/
def content (b : LiveBuilder) (store : ObjectStore) : Json :=
  match b.held with
  | .object id => .object (store.content id)
  | .value json => json

/-- Why a builder whose class has a method in place of its beginning cannot be made: that method
gets the object to begin with, and a setter finds nothing to write it to. -/
def beginningError (m : MethodSpec) : CallError :=
  match m.kind with
  | .setter => .unknownMethod
  | .typename | .accessor => .wrongArgumentCount

/-- **Why no builder of a class can be made**, if none can: there is no class, or a method is in the
way of beginning one or of setting what it holds. -/
def makingError? (spec : BuilderSpec) : Option CallError :=
  match spec.classError? with
  | some e => some e
  | none =>
    match beginningNames.findSome? spec.method? with
    | some m => some (beginningError m)
    | none => if (spec.method? settingName).isSome then some .wrongArgumentCount else none

/-- **The factory's work**: a builder around an object, or around a new and empty one. -/
def make (spec : BuilderSpec) (seed : Option ObjectId) (store : ObjectStore) :
    Except CallError (LiveBuilder × ObjectStore) :=
  match makingError? spec with
  | some e => .error e
  | none =>
    match seed with
    | some object => .ok (⟨spec, .object object⟩, store)
    | none =>
      let (store, object) := store.add []
      .ok (⟨spec, .object object⟩, store)

/-- **What a name stands for.** -/
def attribute? (b : LiveBuilder) (name : String) : Option Attribute :=
  if name = heldName then some .constant
  else
    match b.spec.method? name with
    | some m => some (.method m)
    | none => commonAttributes.lookup name

/-- **A key of what is held written.** -/
def write (b : LiveBuilder) (key : String) (value : Json) (store : ObjectStore) :
    Except CallError ObjectStore :=
  match b.held with
  | .object id => .ok (store.write id key value)
  | .value _ => .error .notAnObject

/-- **A method called.**  A setter takes the value it writes, the other methods take nothing. -/
def callMethod (b : LiveBuilder) (m : MethodSpec) (arguments : List Json) (store : ObjectStore) :
    Except CallError (CallResult × ObjectStore) :=
  match m.kind, arguments with
  | .setter, [value] => do
    let store ← b.write (m.fieldName.getD "") value store
    return (.builder, store)
  | .typename, [] => do
    let store ← b.write (m.fieldName.getD "") (.string (m.value.getD "")) store
    return (.builder, store)
  | .accessor, [] => .ok (.held, store)
  | _, _ => .error .wrongArgumentCount

/-- **A builder begun anew** with what is given: an object is a new one of the store. -/
def restart (b : LiveBuilder) (given : Json) (store : ObjectStore) : LiveBuilder × ObjectStore :=
  match given with
  | .null => let (store, id) := store.add []; ({ b with held := .object id }, store)
  | .object fields => let (store, id) := store.add fields; ({ b with held := .object id }, store)
  | json => ({ b with held := .value json }, store)

/-- **A call**: what it gives back, the builder after it, and the objects after it. -/
def call (b : LiveBuilder) (name : String) (arguments : List Json) (store : ObjectStore) :
    Except CallError (CallResult × LiveBuilder × ObjectStore) :=
  match b.attribute? name with
  | none => .error .unknownMethod
  | some .constant => .error .notCallable
  | some (.inquiry takes) =>
    if takes arguments then .ok (.other, b, store) else .error .wrongArgumentCount
  | some .lookup =>
    match arguments with
    | [.string name] =>
      if name = heldName then .ok (.held, b, store)
      else if (b.attribute? name).isSome then .ok (.other, b, store)
      else .error .unknownMethod
    | _ => .error .wrongArgumentCount
  | some .restart =>
    match arguments with
    | [] => .ok (.other, b.restart .null store)
    | [given] => .ok (.other, b.restart given store)
    | _ => .error .wrongArgumentCount
  | some (.method m) => do
    let (result, store) ← b.callMethod m arguments store
    return (result, b, store)

/-- **A builder as it is shown**: its class around what it holds.  A method of the name that shows
is called in place of this, and has to give a text. -/
def display (b : LiveBuilder) (store : ObjectStore) : Except CallError String × ObjectStore :=
  match b.spec.method? showName with
  | none => (.ok (b.spec.className ++ "(" ++ (b.content store).display ++ ")"), store)
  | some m =>
    match b.callMethod m [] store with
    | .error e => (.error e, store)
    | .ok (.held, store) =>
      match b.content store with
      | .string text => (.ok text, store)
      | _ => (.error .notAText, store)
    | .ok (_, store) => (.error .notAText, store)

end LiveBuilder

end FluentBuilders
