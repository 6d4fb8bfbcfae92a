import LoomImport.Lib.Dict

/-!
# Documents

The objects a document is made of while the adapter holds it, where a dictionary has an identity, and the JSON values it is written
as, where it has none.
-/

namespace LoomImport

/-- A JSON value. -/
inductive Json where
  | null
  | bool (value : Bool)
  | num (value : Int)
  | str (value : String)
  | arr (items : List Json)
  | obj (entries : List (String × Json))

namespace Json

def isNull : Json → Bool
  | null => true
  | _ => false

def getArr? : Json → Except String (List Json)
  | arr items => .ok items
  | _ => .error "array expected"

def getStr? : Json → Except String String
  | str value => .ok value
  | _ => .error "String expected"

def getNat? : Json → Except String Nat
  | num (.ofNat n) => .ok n
  | _ => .error "Natural number expected"

def getBool? : Json → Except String Bool
  | bool value => .ok value
  | _ => .error "Bool expected"

def getObjVal? : Json → String → Except String Json
  | obj entries, name =>
    match entries.lookup name with
    | some value => .ok value
    | none => .error s!"property not found: {name}"
  | _, _ => .error "object expected"

/-- A field of an object is smaller than the object. -/
theorem sizeOf_getObjVal? {json value : Json} {name : String} (h : json.getObjVal? name = .ok value) :
    sizeOf value < sizeOf json := by
  cases json with
  | obj entries =>
    simp only [getObjVal?] at h
    cases hfound : entries.lookup name with
    | none =>
      rw [hfound] at h
      cases h
    | some found =>
      rw [hfound] at h
      cases h
      have hlt := List.sizeOf_lt_of_mem (Dict.mem_of_lookup hfound)
      simp at hlt ⊢
      omega
  | _ => cases h

end Json

/-- A value of the adapter. The identity of a dictionary is `id(value)`. -/
inductive PyValue where
  | none
  | bool (value : Bool)
  | int (value : Int)
  | str (value : String)
  | list (items : List PyValue)
  | dict (identity : Nat) (entries : List (String × PyValue))

namespace PyValue

mutual

/-- `json.dumps`. -/
def toJson : PyValue → Json
  | none => .null
  | bool value => .bool value
  | int value => .num value
  | str value => .str value
  | list items => .arr (itemsToJson items)
  | dict _ entries => .obj (entriesToJson entries)

def itemsToJson : List PyValue → List Json
  | [] => []
  | item :: items => item.toJson :: itemsToJson items

def entriesToJson : List (String × PyValue) → List (String × Json)
  | [] => []
  | (name, value) :: entries => (name, value.toJson) :: entriesToJson entries

end

/-- `value[name]`. -/
def get? : PyValue → String → Option PyValue
  | dict _ entries, name => entries.lookup name
  | _, _ => .none

/-- The values a loop goes through: those of a list, the keys of a dictionary, the characters of a text. -/
def iterate? : PyValue → Option (List PyValue)
  | list items => some items
  | dict _ entries => some (entries.map fun entry => str entry.1)
  | str value => some (value.toList.map fun c => str (String.singleton c))
  | _ => .none

/-- A value is in another one. -/
inductive Within : PyValue → PyValue → Prop where
  | refl (value : PyValue) : Within value value
  | item {value item : PyValue} {items : List PyValue} (h : item ∈ items) : Within value item → Within value (list items)
  | entry {value field : PyValue} {identity : Nat} {name : String} {entries : List (String × PyValue)}
      (h : entries.lookup name = some field) : Within value field → Within value (dict identity entries)

theorem Within.trans {a b c : PyValue} (h : Within a b) (h' : Within b c) : Within a c := by
  induction h' with
  | refl => exact h
  | item hmem _ ih => exact Within.item hmem ih
  | entry hlookup _ ih => exact Within.entry hlookup ih

/-- What has one identity is one value: the expressions of a document are trees, or share some of their parts. -/
def Coherent (document : PyValue) : Prop :=
  ∀ identity entries entries', Within (dict identity entries) document → Within (dict identity entries') document →
    entries = entries'

mutual

/-- The dictionaries of a value, with their identities. -/
def dicts : PyValue → List (Nat × List (String × PyValue))
  | list items => itemsDicts items
  | dict identity entries => (identity, entries) :: entriesDicts entries
  | _ => []

def itemsDicts : List PyValue → List (Nat × List (String × PyValue))
  | [] => []
  | item :: items => item.dicts ++ itemsDicts items

def entriesDicts : List (String × PyValue) → List (Nat × List (String × PyValue))
  | [] => []
  | (_, value) :: entries => value.dicts ++ entriesDicts entries

end

theorem mem_itemsDicts {d : Nat × List (String × PyValue)} {item : PyValue} {items : List PyValue} (h : item ∈ items)
    (hd : d ∈ item.dicts) : d ∈ itemsDicts items := by
  induction items with
  | nil => cases h
  | cons first items ih =>
    rw [itemsDicts, List.mem_append]
    rcases List.mem_cons.1 h with rfl | h
    · exact Or.inl hd
    · exact Or.inr (ih h)

theorem mem_entriesDicts {d : Nat × List (String × PyValue)} {entry : String × PyValue} {entries : List (String × PyValue)}
    (h : entry ∈ entries) (hd : d ∈ entry.2.dicts) : d ∈ entriesDicts entries := by
  induction entries with
  | nil => cases h
  | cons first entries ih =>
    rw [entriesDicts, List.mem_append]
    rcases List.mem_cons.1 h with rfl | h
    · exact Or.inl hd
    · exact Or.inr (ih h)

/-- A dictionary in a value is one of its dictionaries. -/
theorem mem_dicts_of_within {identity : Nat} {entries : List (String × PyValue)} {document : PyValue}
    (h : Within (dict identity entries) document) : (identity, entries) ∈ document.dicts := by
  induction h with
  | refl =>
    rw [dicts]
    exact List.mem_cons_self
  | item hmem _ ih =>
    rw [dicts]
    exact mem_itemsDicts hmem ih
  | entry hlookup _ ih =>
    rw [dicts]
    exact List.mem_cons_of_mem _ (mem_entriesDicts (Dict.mem_of_lookup hlookup) ih)

/-- A document is coherent when the entries of its dictionaries are a function of the identity. -/
theorem coherent_of_dicts {document : PyValue} (f : Nat → List (String × PyValue)) (h : ∀ d ∈ document.dicts, d.2 = f d.1) :
    document.Coherent := fun _ _ _ hw hw' =>
  (h _ (mem_dicts_of_within hw)).trans (h _ (mem_dicts_of_within hw')).symm

theorem itemsToJson_eq (items : List PyValue) : itemsToJson items = items.map toJson := by
  induction items with
  | nil => rw [itemsToJson]; rfl
  | cons item items ih => rw [itemsToJson, ih, List.map_cons]

theorem entriesToJson_eq (entries : List (String × PyValue)) :
    entriesToJson entries = entries.map fun entry => (entry.1, entry.2.toJson) := by
  induction entries with
  | nil => rw [entriesToJson]; rfl
  | cons entry entries ih => rw [entriesToJson, ih, List.map_cons]

@[simp] theorem toJson_list (items : List PyValue) : (list items).toJson = .arr (items.map toJson) := by
  rw [toJson, itemsToJson_eq]

@[simp] theorem toJson_dict (identity : Nat) (entries : List (String × PyValue)) :
    (dict identity entries).toJson = .obj (entries.map fun entry => (entry.1, entry.2.toJson)) := by
  rw [toJson, entriesToJson_eq]

end PyValue

end LoomImport
