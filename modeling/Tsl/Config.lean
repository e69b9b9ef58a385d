import Mathlib.Algebra.Group.Int.Defs
import Mathlib.Data.List.Basic
import Tsl.Result

set_option autoImplicit false

/-! # The configuration engine

`tsl/config/engine.c`: a configuration is a JSON value, read through paths and array indices into
atoms, and through typed getters into variables of the caller.

A getter that finds a value of another type returns `A_OK` all the same, and an atom holds 32 of the
64 bits of an integer. So a getter answers by the JSON value exactly if the value it finds is of the
type asked for and fits (`typedGetters_iff`). -/

namespace Tsl

universe u

/-- A value of the JSON library, `json_t`. A string is its characters before the terminating zero. -/
inductive Json where
  | array (elems : List Json)
  | integer (value : BitVec 64)
  | string (value : List Char)
  | true
  | false
  | real (value : Float)
  | null
  | object (members : List (List Char × Json))

/-- `struct config`: an atom, with the member of the union that its type selects. An array and a nested
    object stay JSON values. -/
inductive Config where
  | integer (atomInteger : BitVec 32)
  | string (atomString : List Char)
  | array (atomArray : Json)
  | nested (atomNested : Json)
  | boolean (atomBool : Bool)
  | float (atomFloat : Float32)
  | null

/-- The part of the JSON library that is called to look into values and to add to them. `objectGet` is
    `json_object_get` and `loads` is `json_loads`; `objectUpdate` is `json_object_update`: whether it
    succeeds, and the object after it. -/
structure Jansson where
  objectGet : Json → List Char → Option Json
  loads : List Char → Option Json
  objectUpdate : Json → Json → Bool × Json

/-- What `json_object_get` is documented to do: it finds nothing if the member is missing, or in a value
    that is no object. -/
structure Jansson.GetsMembers (j : Jansson) : Prop where
  object : ∀ members key, j.objectGet (.object members) key = members.lookup key
  other : ∀ json key, (∀ members, json ≠ .object members) → j.objectGet json key = none

/-! ## The code -/

/-- `__config_from_json`. -/
def configFromJson : Json → Config
  | .array elems => .array (.array elems)
  | .integer value => .integer (value.setWidth 32)
  | .string value => .string value
  | .true => .boolean Bool.true
  | .false => .boolean Bool.false
  | .real value => .float value.toFloat32
  | .null => .null
  | .object members => .nested (.object members)

/-- The loop of `config_get`, at `current_pos` in the path: the last `item`, or nothing if a member is
    missing. -/
def configWalk (j : Jansson) (item : Json) (currentPos : List Char) : Option Json :=
  if currentPos = [] then some item
  else
    match j.objectGet item (currentPos.takeWhile (· ≠ '.')) with
    | none => none
    | some item => configWalk j item (currentPos.dropWhile (· ≠ '.')).tail
termination_by currentPos.length
decreasing_by
  have hle := (List.dropWhile_sublist (· ≠ '.') (l := currentPos)).length_le
  have hpos := List.length_pos_of_ne_nil ‹currentPos ≠ []›
  rw [List.length_tail]
  omega

/-- `config_get` on the object `cfg->atom_nested`. The copy of the path fails when `strdup` says so. -/
def configGet (j : Jansson) (atomNested : Json) (itemId : List Char) (strdup : Bool) :
    Except AResult Config :=
  if itemId = [] then .error aEBadargs
  else if strdup = Bool.false then .error aENomem
  else
    match configWalk j atomNested itemId with
    | none => .error aENotfound
    | some item => .ok (configFromJson item)

/-- `config_array_length`. -/
def configArrayLength (atm : Config) : Except AResult ℕ :=
  match atm with
  | .array (.array elems) => .ok elems.length
  | _ => .error aEInval

/-- `config_array_at`. -/
def configArrayAt (array : Config) (index : ℕ) : Except AResult Config :=
  match array with
  | .array (.array elems) =>
      match elems[index]? with
      | none => .error aEInval
      | some item => .ok (configFromJson item)
  | _ => .error aEInval

/-- A typed getter, once it has looked for an atom: the result and what is then in the caller's
    variable, which held `val`. An atom that is not of the type `asked` for ends it with `A_OK`. -/
def configTyped {α : Type u} (asked : Config → Option α) (found : Except AResult Config) (val : α) :
    AResult × α :=
  match found with
  | .error ret => (ret, val)
  | .ok atm =>
      match asked atm with
      | none => (aOk, val)
      | some v => (aOk, v)

/-- `atom_integer` of an atom of that type. -/
def Config.asInteger : Config → Option (BitVec 32)
  | .integer atomInteger => some atomInteger
  | _ => none

/-- `atom_string` of an atom of that type. -/
def Config.asString : Config → Option (Option (List Char))
  | .string atomString => some (some atomString)
  | _ => none

/-- `atom_bool` of an atom of that type. -/
def Config.asBoolean : Config → Option Bool
  | .boolean atomBool => some atomBool
  | _ => none

/-- `config_get_integer`. -/
def configGetInteger (j : Jansson) (cfg : Json) (val : BitVec 32) (itemId : List Char) (strdup : Bool) :
    AResult × BitVec 32 :=
  configTyped Config.asInteger (configGet j cfg itemId strdup) val

/-- `config_get_string`. A string pointer that is `NULL` is `none`. -/
def configGetString (j : Jansson) (cfg : Json) (val : Option (List Char)) (itemId : List Char) (strdup : Bool) :
    AResult × Option (List Char) :=
  configTyped Config.asString (configGet j cfg itemId strdup) val

/-- `config_get_boolean`. -/
def configGetBoolean (j : Jansson) (cfg : Json) (val : Bool) (itemId : List Char) (strdup : Bool) :
    AResult × Bool :=
  configTyped Config.asBoolean (configGet j cfg itemId strdup) val

/-- `config_array_at_integer`, which clears the variable first. -/
def configArrayAtInteger (array : Config) (index : ℕ) : AResult × BitVec 32 :=
  configTyped Config.asInteger (configArrayAt array index) 0#32

/-- `config_array_at_string`, which clears the variable first. -/
def configArrayAtString (array : Config) (index : ℕ) : AResult × Option (List Char) :=
  configTyped Config.asString (configArrayAt array index) none

/-! ## What they should do -/

/-- The member of that name, nothing if there is none or the value is no object. -/
def Json.member? : Json → List Char → Option Json
  | .object members, key => members.lookup key
  | _, _ => none

/-- The path leads from one value to another: through the members of objects, its components being
    separated by dots. A dot at the end is ignored. -/
inductive Json.Addressed : Json → List Char → Json → Prop
  | here (json : Json) : Addressed json [] json
  | last {json item : Json} {key : List Char} : '.' ∉ key → key ≠ [] →
      json.member? key = some item → Addressed json key item
  | member {json child item : Json} {key rest : List Char} : '.' ∉ key →
      json.member? key = some child → Addressed child rest item →
      Addressed json (key ++ '.' :: rest) item

/-- The array holds the value at the index. -/
def Config.Indexed (array : Config) (index : ℕ) (item : Json) : Prop :=
  ∃ elems, array = .array (.array elems) ∧ elems[index]? = some item

/-- The variable holds the integer that the JSON value is. -/
def Json.SameInteger (json : Json) (val : BitVec 32) : Prop :=
  ∃ value, json = .integer value ∧ value.toInt = val.toInt

/-- The variable points to the string that the JSON value is. -/
def Json.SameString (json : Json) (val : Option (List Char)) : Prop :=
  ∃ value, json = .string value ∧ val = some value

/-- The variable holds the truth value that the JSON value is. -/
def Json.SameBoolean (json : Json) (val : Bool) : Prop :=
  json = .true ∧ val = Bool.true ∨ json = .false ∧ val = Bool.false

/-- A getter succeeds only with a value that was `addressed`, and then what it has stored is the same
    as that value; otherwise it fails. -/
def AnswersTyped {α : Type u} (same : Json → α → Prop) (addressed : Json → Prop)
    (r : AResult × α) : Prop :=
  (r.1 = aOk ∧ ∃ item, addressed item ∧ same item r.2) ∨ afailed r.1 = Bool.true

/-! ## What is looked up -/

section Walk

variable {j : Jansson} {json item : Json} {key rest path : List Char}

theorem takeWhile_key (hkey : '.' ∉ key) :
    (key ++ '.' :: rest).takeWhile (· ≠ '.') = key := by
  induction key with
  | nil => rfl
  | cons c key ih =>
      simp only [List.mem_cons, not_or] at hkey
      rw [List.cons_append, List.takeWhile_cons_of_pos (by simpa using Ne.symm hkey.1), ih hkey.2]

theorem dropWhile_key (hkey : '.' ∉ key) :
    (key ++ '.' :: rest).dropWhile (· ≠ '.') = '.' :: rest := by
  induction key with
  | nil => rfl
  | cons c key ih =>
      simp only [List.mem_cons, not_or] at hkey
      rw [List.cons_append, List.dropWhile_cons_of_pos (by simpa using Ne.symm hkey.1), ih hkey.2]

theorem Jansson.GetsMembers.get_eq (hj : j.GetsMembers) (json : Json) (key : List Char) :
    j.objectGet json key = json.member? key := by
  cases json with
  | object members => exact hj.object members key
  | _ => exact hj.other _ key (by simp)

theorem configWalk_nil : configWalk j item [] = some item := by
  rw [configWalk, if_pos rfl]

theorem path_split (path : List Char) :
    '.' ∉ path ∧ path.takeWhile (· ≠ '.') = path ∧ (path.dropWhile (· ≠ '.')).tail = [] ∨
      '.' ∉ path.takeWhile (· ≠ '.') ∧
        path = path.takeWhile (· ≠ '.') ++ '.' :: (path.dropWhile (· ≠ '.')).tail := by
  induction path with
  | nil => exact .inl ⟨List.not_mem_nil, rfl, rfl⟩
  | cons c path ih =>
      by_cases hc : c = '.'
      · subst hc
        exact .inr ⟨by simp, by simp⟩
      · rw [List.takeWhile_cons_of_pos (by simpa using hc),
          List.dropWhile_cons_of_pos (by simpa using hc)]
        rcases ih with ⟨hnot, htake, hdrop⟩ | ⟨hnot, hsplit⟩
        · exact .inl ⟨by simp [Ne.symm hc, hnot], by rw [htake], hdrop⟩
        · exact .inr ⟨by simpa [Ne.symm hc] using hnot, by rw [List.cons_append, ← hsplit]⟩

theorem addressed_of_configWalk (hj : j.GetsMembers) (h : configWalk j json path = some item) :
    json.Addressed path item := by
  induction json, path using configWalk.induct j with
  | case1 json =>
      rw [configWalk_nil, Option.some.injEq] at h
      subst h
      exact .here json
  | case2 json path hpath hnone =>
      rw [configWalk, if_neg hpath, hnone] at h
      cases h
  | case3 json path hpath child hchild ih =>
      rw [configWalk, if_neg hpath, hchild] at h
      change configWalk j child _ = some item at h
      rw [hj.get_eq] at hchild
      rcases path_split path with ⟨hnot, htake, hdrop⟩ | ⟨hnot, hsplit⟩
      · rw [hdrop, configWalk_nil, Option.some.injEq] at h
        subst h
        rw [htake] at hchild
        exact .last hnot hpath hchild
      · rw [hsplit]
        exact .member hnot hchild (ih h)

theorem Json.Addressed.configWalk (hj : j.GetsMembers) (h : json.Addressed path item) :
    Tsl.configWalk j json path = some item := by
  induction h with
  | here json => exact configWalk_nil
  | @last json item key hnot hkey hget =>
      rw [Tsl.configWalk, if_neg hkey, hj.get_eq]
      rcases path_split key with ⟨-, htake, hdrop⟩ | ⟨-, hsplit⟩
      · rw [htake, hget, hdrop]
        exact configWalk_nil
      · rw [hsplit] at hnot
        exact absurd (by simp) hnot
  | member hnot hget _ ih =>
      rw [Tsl.configWalk, if_neg (by simp), hj.get_eq, takeWhile_key hnot, hget, dropWhile_key hnot]
      exact ih

/-- The walk ends at the value the path leads to. -/
theorem configWalk_eq_some (hj : j.GetsMembers) :
    configWalk j json path = some item ↔ json.Addressed path item :=
  ⟨addressed_of_configWalk hj, Json.Addressed.configWalk hj⟩

/-- A library that looks up members and does no more. -/
def membersOnly : Jansson where
  objectGet := Json.member?
  loads := fun _ => none
  objectUpdate := fun object _ => (Bool.false, object)

theorem membersOnly_getsMembers : membersOnly.GetsMembers where
  object := fun _ _ => rfl
  other := by
    intro json key hother
    cases json with
    | object members => exact absurd rfl (hother members)
    | _ => rfl

theorem Json.Addressed.unique {other : Json} (h : json.Addressed path item)
    (h' : json.Addressed path other) : item = other := by
  have hwalk := h.configWalk membersOnly_getsMembers
  rw [h'.configWalk membersOnly_getsMembers, Option.some.injEq] at hwalk
  exact hwalk.symm

end Walk

/-- What a lookup finds: the one value that is `addressed`, if it is `ready` to look; otherwise it
    fails. -/
structure Finds (ready : Prop) (addressed : Json → Prop) (found : Except AResult Config) : Prop where
  unique : ∀ item other, addressed item → addressed other → item = other
  ok : ∀ item, ready → addressed item → found = .ok (configFromJson item)
  error : (∀ item, ready → ¬ addressed item) → ∃ ret, afailed ret = Bool.true ∧ found = .error ret

theorem finds_configGet {j : Jansson} (hj : j.GetsMembers) (cfg : Json) (itemId : List Char)
    (strdup : Bool) :
    Finds (itemId ≠ [] ∧ strdup = Bool.true) (cfg.Addressed itemId)
      (configGet j cfg itemId strdup) where
  unique := fun _ _ h h' => h.unique h'
  ok := by
    rintro item ⟨hid, rfl⟩ haddressed
    rw [configGet, if_neg hid, if_neg (by decide), haddressed.configWalk hj]
  error := by
    intro hnone
    unfold configGet
    split
    · exact ⟨_, afailed_aresultError _ _, rfl⟩
    · next hid =>
        split
        · exact ⟨_, afailed_aresultError _ _, rfl⟩
        · next hdup =>
            cases hwalk : configWalk j cfg itemId with
            | none => exact ⟨_, afailed_aresultError _ _, rfl⟩
            | some item =>
                exact absurd ((configWalk_eq_some hj).1 hwalk)
                  (hnone item ⟨hid, by simpa using hdup⟩)

theorem finds_configArrayAt (array : Config) (index : ℕ) :
    Finds True (array.Indexed index) (configArrayAt array index) where
  unique := by
    rintro item other ⟨elems, rfl, hitem⟩ ⟨elems', heq, hother⟩
    cases heq
    rw [hitem, Option.some.injEq] at hother
    exact hother
  ok := by
    rintro item - ⟨elems, rfl, hitem⟩
    simp only [configArrayAt, hitem]
  error := by
    intro hnone
    unfold configArrayAt
    split
    · next elems =>
        split
        · exact ⟨_, afailed_aresultError _ _, rfl⟩
        · next item hitem => exact absurd ⟨elems, rfl, hitem⟩ (hnone item trivial)
    · exact ⟨_, afailed_aresultError _ _, rfl⟩

/-! ## When the getters answer by the value -/

/-- The value is an integer that fits an `int`. -/
def Json.FitsInt (json : Json) : Prop :=
  ∃ value, json = .integer value ∧ -2 ^ 31 ≤ value.toInt ∧ value.toInt < 2 ^ 31

def Json.IsString (json : Json) : Prop := ∃ value, json = .string value

def Json.IsBoolean (json : Json) : Prop := json = .true ∨ json = .false

theorem toInt_setWidth_iff (value : BitVec 64) :
    value.toInt = (value.setWidth 32).toInt ↔ -2 ^ 31 ≤ value.toInt ∧ value.toInt < 2 ^ 31 := by
  simp only [BitVec.toInt_eq_toNat_bmod, BitVec.toNat_setWidth]
  have := value.isLt
  simp only [Int.bmod]
  omega

theorem int_bounds (val : BitVec 32) : -2 ^ 31 ≤ val.toInt ∧ val.toInt < 2 ^ 31 :=
  ⟨val.le_toInt, val.toInt_lt⟩

section Same

variable {json : Json}

theorem Json.SameInteger.asInteger {val : BitVec 32} (h : json.SameInteger val) :
    (configFromJson json).asInteger = some val := by
  obtain ⟨value, rfl, heq⟩ := h
  have hkept : value.toInt = (value.setWidth 32).toInt := by
    rw [toInt_setWidth_iff, heq]
    exact int_bounds val
  rw [configFromJson, Config.asInteger, BitVec.eq_of_toInt_eq (hkept.symm.trans heq)]

theorem Json.SameString.asString {val : Option (List Char)} (h : json.SameString val) :
    (configFromJson json).asString = some val := by
  obtain ⟨value, rfl, rfl⟩ := h
  rfl

theorem Json.SameBoolean.asBoolean {val : Bool} (h : json.SameBoolean val) :
    (configFromJson json).asBoolean = some val := by
  rcases h with ⟨rfl, rfl⟩ | ⟨rfl, rfl⟩ <;> rfl

theorem Json.fitsInt_iff : json.FitsInt ↔ ∃ val, json.SameInteger val := by
  constructor
  · rintro ⟨value, rfl, hfits⟩
    exact ⟨value.setWidth 32, value, rfl, (toInt_setWidth_iff value).2 hfits⟩
  · rintro ⟨val, value, rfl, heq⟩
    refine ⟨value, rfl, ?_⟩
    rw [heq]
    exact int_bounds val

theorem Json.isString_iff : json.IsString ↔ ∃ val, json.SameString val := by
  constructor
  · rintro ⟨value, rfl⟩
    exact ⟨some value, value, rfl, rfl⟩
  · rintro ⟨val, value, rfl, -⟩
    exact ⟨value, rfl⟩

theorem Json.isBoolean_iff : json.IsBoolean ↔ ∃ val, json.SameBoolean val := by
  constructor
  · rintro (rfl | rfl)
    · exact ⟨Bool.true, .inl ⟨rfl, rfl⟩⟩
    · exact ⟨Bool.false, .inr ⟨rfl, rfl⟩⟩
  · rintro ⟨val, ⟨rfl, -⟩ | ⟨rfl, -⟩⟩
    · exact .inl rfl
    · exact .inr rfl

end Same

/-- A getter that finds an atom succeeds, whatever its type. -/
theorem configTyped_ok {α : Type u} (asked : Config → Option α) (atm : Config) (val : α) :
    configTyped asked (.ok atm) val = (aOk, (asked atm).getD val) := by
  simp only [configTyped]
  cases asked atm <;> rfl

/-- **A typed getter** over any lookup: it answers by the value found exactly if that value has a
    counterpart in the type asked for. -/
theorem answersTyped_configTyped {α : Type u} {asked : Config → Option α} {same : Json → α → Prop}
    {fits : Json → Prop} (hsame : ∀ {item v}, same item v → asked (configFromJson item) = some v)
    (hfits : ∀ {item}, fits item ↔ ∃ v, same item v) {ready : Prop} {addressed : Json → Prop}
    {found : Except AResult Config} (hfound : Finds ready addressed found) (val : α) :
    AnswersTyped same addressed (configTyped asked found val) ↔
      ∀ item, ready → addressed item → fits item := by
  constructor
  · intro hanswers item hready hitem
    rw [hfound.ok item hready hitem] at hanswers
    rw [configTyped_ok] at hanswers
    rcases hanswers with ⟨-, other, hother, hstored⟩ | hfailed
    · rw [hfound.unique item other hitem hother]
      exact hfits.2 ⟨_, hstored⟩
    · rw [afailed_aOk] at hfailed
      cases hfailed
  · intro hall
    by_cases hsome : ∃ item, ready ∧ addressed item
    · obtain ⟨item, hready, hitem⟩ := hsome
      obtain ⟨v, hv⟩ := hfits.1 (hall item hready hitem)
      rw [hfound.ok item hready hitem, configTyped_ok, hsame hv]
      exact .inl ⟨rfl, item, hitem, hv⟩
    · obtain ⟨ret, hfailed, hret⟩ := hfound.error fun item hready hitem =>
        hsome ⟨item, hready, hitem⟩
      rw [hret]
      exact .inr hfailed

/-- **The typed getters** answer by the JSON value exactly if what they find has the type asked for,
and fits an `int` where that is the type. -/
theorem typedGetters_iff {j : Jansson} (hj : j.GetsMembers) (cfg : Json) (array : Config)
    (itemId : List Char) (strdup : Bool) (index : ℕ) (i : BitVec 32) (s : Option (List Char)) (b : Bool) :
    (AnswersTyped Json.SameInteger (cfg.Addressed itemId) (configGetInteger j cfg i itemId strdup) ↔
      ∀ item, itemId ≠ [] ∧ strdup = Bool.true → cfg.Addressed itemId item → item.FitsInt) ∧
    (AnswersTyped Json.SameString (cfg.Addressed itemId) (configGetString j cfg s itemId strdup) ↔
      ∀ item, itemId ≠ [] ∧ strdup = Bool.true → cfg.Addressed itemId item → item.IsString) ∧
    (AnswersTyped Json.SameBoolean (cfg.Addressed itemId) (configGetBoolean j cfg b itemId strdup) ↔
      ∀ item, itemId ≠ [] ∧ strdup = Bool.true → cfg.Addressed itemId item → item.IsBoolean) ∧
    (AnswersTyped Json.SameInteger (array.Indexed index) (configArrayAtInteger array index) ↔
      ∀ item, array.Indexed index item → item.FitsInt) ∧
    (AnswersTyped Json.SameString (array.Indexed index) (configArrayAtString array index) ↔
      ∀ item, array.Indexed index item → item.IsString) := by
  have hget := finds_configGet hj cfg itemId strdup
  have hat := finds_configArrayAt array index
  refine ⟨?integer, ?string, ?boolean, ?atInteger, ?atString⟩
  case integer => exact answersTyped_configTyped Json.SameInteger.asInteger Json.fitsInt_iff hget i
  case string => exact answersTyped_configTyped Json.SameString.asString Json.isString_iff hget s
  case boolean => exact answersTyped_configTyped Json.SameBoolean.asBoolean Json.isBoolean_iff hget b
  case atInteger =>
    refine (answersTyped_configTyped Json.SameInteger.asInteger Json.fitsInt_iff hat 0#32).trans ?_
    simp only [true_imp_iff]
  case atString =>
    refine (answersTyped_configTyped Json.SameString.asString Json.isString_iff hat none).trans ?_
    simp only [true_imp_iff]

/-- A configuration with a name, an integer of 33 bits, and an array of one name. -/
def mixedConfig : Json :=
  .object [("log".toList, .object [("name".toList, .string "feed".toList)]),
    ("cores".toList, .integer 4294967301#64)]

theorem mixedConfig_logName :
    mixedConfig.Addressed "log.name".toList (.string "feed".toList) := by
  rw [show "log.name".toList = "log".toList ++ '.' :: "name".toList by decide]
  exact .member (by decide) rfl (.last (by decide) (by decide) rfl)

/-- The name can be read as a string. -/
theorem typedGetters_iff_logName :
    configGetString membersOnly mixedConfig none "log.name".toList true =
        (aOk, some "feed".toList) ∧
      AnswersTyped Json.SameString (mixedConfig.Addressed "log.name".toList)
        (configGetString membersOnly mixedConfig none "log.name".toList true) := by
  have hiff := typedGetters_iff membersOnly_getsMembers mixedConfig .null "log.name".toList true 0 0#32
    none Bool.false
  refine ⟨?_, hiff.2.1.2 fun item _ hitem => ?_⟩
  · rw [configGetString,
      (finds_configGet membersOnly_getsMembers _ _ _).ok _ ⟨by decide, rfl⟩ mixedConfig_logName]
    rfl
  · rw [hitem.unique mixedConfig_logName]
    exact ⟨_, rfl⟩

/-- A name is no integer, yet reading it as one succeeds and stores nothing; an array entry that is no
integer is read as 0, and 4294967301 is read as 5. -/
theorem mismatch_answers_ok :
    configGetInteger membersOnly mixedConfig 77#32 "log.name".toList true = (aOk, 77#32) ∧
    configGetInteger membersOnly mixedConfig 77#32 "cores".toList true = (aOk, 5#32) ∧
    configArrayAtInteger (.array (.array [.null])) 0 = (aOk, 0#32) ∧
    ¬ AnswersTyped Json.SameInteger (mixedConfig.Addressed "log.name".toList)
      (configGetInteger membersOnly mixedConfig 77#32 "log.name".toList true) ∧
    ¬ AnswersTyped Json.SameInteger (mixedConfig.Addressed "cores".toList)
      (configGetInteger membersOnly mixedConfig 77#32 "cores".toList true) ∧
    ¬ AnswersTyped Json.SameInteger ((Config.array (.array [.null])).Indexed 0)
      (configArrayAtInteger (.array (.array [.null])) 0) := by
  have hname := mixedConfig_logName
  have hcores : mixedConfig.Addressed "cores".toList (.integer 4294967301#64) :=
    .last (by decide) (by decide) rfl
  have hgetName : configGetInteger membersOnly mixedConfig 77#32 "log.name".toList true = (aOk, 77#32) := by
    rw [configGetInteger, (finds_configGet membersOnly_getsMembers _ _ _).ok _ ⟨by decide, rfl⟩ hname]
    rfl
  have hgetCores : configGetInteger membersOnly mixedConfig 77#32 "cores".toList true = (aOk, 5#32) := by
    rw [configGetInteger, (finds_configGet membersOnly_getsMembers _ _ _).ok _ ⟨by decide, rfl⟩ hcores]
    rfl
  refine ⟨hgetName, hgetCores, rfl, ?_, ?_, ?_⟩
  · rw [hgetName]
    rintro (⟨-, item, hitem, value, rfl, -⟩ | hfailed)
    · cases hitem.unique hname
    · revert hfailed
      decide
  · rw [hgetCores]
    rintro (⟨-, item, hitem, value, rfl, hsame⟩ | hfailed)
    · cases hitem.unique hcores
      revert hsame
      decide
    · revert hfailed
      decide
  · rintro (⟨-, item, ⟨elems, heq, hitem⟩, value, rfl, -⟩ | hfailed)
    · cases heq
      cases hitem
    · revert hfailed
      decide

end Tsl
