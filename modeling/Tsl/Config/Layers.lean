import Tsl.Config.Path
import Tsl.Lib.Machine

set_option autoImplicit false

/-! # A configuration from layers

A configuration starts empty, and files and strings are added to it, to the whole of it or to an object
inside that was looked up before. An object that is added replaces the members it has, whatever was
below them: nothing is merged further down. So a path leads to what the newest layer says that has the
next segment behind the place it was added at (`newest`, `layered_of_run`), and to nothing if that layer
ends earlier, although an older one may go on. -/

namespace Tsl

open Lib

/-! ## The code -/

/-- What `json_object_update` is documented to do besides, if memory is not short: the members of the
    one object get or replace those of the other. Nothing is done with a value that is no object. -/
structure Jansson.Documented (j : Jansson) : Prop extends j.GetsMembers where
  updates : ∀ object other, ∃ members,
    j.objectUpdate (.object object) (.object other) = (true, .object members) ∧
      ∀ key, members.lookup key = (other.lookup key).or (object.lookup key)
  refuses : ∀ object other, (∀ members, other ≠ .object members) →
    j.objectUpdate object other = (false, object)

/-- `config_new`. `calloc` and `jsonObject` are whether there was memory for the structure and for its
    object. -/
def configNew (calloc jsonObject : Bool) : AResult × Option Config :=
  if calloc = false then (aENomem, none)
  else if jsonObject = false then (aENomem, none)
  else (aOk, some (.nested (.object [])))

/-- What `config_add` and `config_add_string` do with a parsed value; `none` if it could not be
    parsed. -/
def configMerge (j : Jansson) (cfg : Config) (json : Option Json) : AResult × Config :=
  match cfg with
  | .nested atomNested =>
      match json with
      | none => (aEInval, cfg)
      | some json =>
          let (updated, atomNested) := j.objectUpdate atomNested json
          (if updated = false then aEInval else aOk, .nested atomNested)
  | _ => (aEInval, cfg)

/-- `config_add`; `loaded` is what `json_load_file` makes of the file. -/
def configAdd (j : Jansson) (cfg : Config) (filename : List Char) (loaded : Option Json) :
    AResult × Config :=
  if filename = [] then (aEBadargs, cfg) else configMerge j cfg loaded

/-- `config_add_string`. -/
def configAddString (j : Jansson) (cfg : Config) (jsonString : List Char) : AResult × Config :=
  if jsonString = [] then (aEBadargs, cfg) else configMerge j cfg (j.loads jsonString)

/-! ## Places in a value -/

/-- The value that the segments lead to. -/
def Json.find (json : Json) (segments : List (List Char)) : Option Json :=
  segments.foldlM Json.member? json

/-- The members with another value for a key they have. -/
def putMember (key : List Char) (item : Json) :
    List (List Char × Json) → List (List Char × Json)
  | [] => []
  | member :: rest =>
      if key = member.1 then (key, item) :: rest else member :: putMember key item rest

/-- The value with another one in the place that the segments lead to. -/
def Json.replaceAt : List (List Char) → Json → Json → Json
  | [], item, _ => item
  | key :: rest, item, json =>
      match json, json.member? key with
      | .object members, some child => .object (putMember key (replaceAt rest item child) members)
      | _, _ => json

/-! ## Histories of a configuration -/

/-- What can be done to a configuration. -/
inductive ConfigCall where
  | add (filename : List Char) (loaded : Option Json)
  | addString (jsonString : List Char)
  /-- `config_get`, and `config_add_string` to the atom it gave. -/
  | addStringAt (path : Path) (strdup : Bool) (jsonString : List Char)

/-- An atom points into the configuration, so what is done to its object is done to the object there. -/
def inPlace (cfg : Json) (segments : List (List Char)) (r : AResult × Config) : AResult × Json :=
  match r.2 with
  | .nested atomNested => (r.1, Json.replaceAt segments atomNested cfg)
  | _ => (r.1, cfg)

/-- The call on the object of the configuration. -/
def ConfigCall.run (j : Jansson) (cfg : Json) : ConfigCall → AResult × Json
  | .add filename loaded => inPlace cfg [] (configAdd j (.nested cfg) filename loaded)
  | .addString jsonString => inPlace cfg [] (configAddString j (.nested cfg) jsonString)
  | .addStringAt path strdup jsonString =>
      match configGet j cfg path.dotted strdup with
      | .error ret => (ret, cfg)
      | .ok atm => inPlace cfg path.segments (configAddString j atm jsonString)

/-- What the call adds, and the place it adds it at. -/
def ConfigCall.layer (j : Jansson) : ConfigCall → Option (List (List Char) × Json)
  | .add _ loaded => loaded.map fun json => ([], json)
  | .addString jsonString => (j.loads jsonString).map fun json => ([], json)
  | .addStringAt path _ jsonString => (j.loads jsonString).map fun json => (path.segments, json)

/-- The object of a configuration, and the layers of the calls that succeeded, the newest first. -/
structure ConfigRun where
  cfg : Json
  layers : List (List (List Char) × Json)

def configStep (j : Jansson) (s : ConfigRun) (c : ConfigCall) : Option ConfigRun :=
  let (ret, cfg) := c.run j s.cfg
  some { cfg := cfg
         layers := if afailed ret then s.layers else (c.layer j).toList ++ s.layers }

/-! ## What is found -/

/-- What the newest layer says that has the next segment behind its place. -/
def newest : List (List (List Char) × Json) → List (List Char) → Option Json
  | [], _ => none
  | (place, layer) :: older, segments =>
      match segments.dropPrefix? place with
      | some (key :: rest) =>
          match layer.member? key with
          | some child => child.find rest
          | none => newest older segments
      | _ => newest older segments

/-- What `config_get` would answer about that. -/
def newestAtom (layers : List (List (List Char) × Json)) (p : Path) : Except AResult Config :=
  match newest layers p.segments with
  | none => .error aENotfound
  | some item => .ok (configFromJson item)

/-- The same value, or two objects: an object can have got more members in place. -/
inductive Alike : Option Json → Option Json → Prop
  | same (item : Option Json) : Alike item item
  | objects (members members' : List (List Char × Json)) :
      Alike (some (.object members)) (some (.object members'))

/-- The configuration answers as its layers do, the newest first, and a call that fails has left it as
    it was. -/
structure Layered (j : Jansson) (s : ConfigRun) : Prop where
  refused : ∀ c : ConfigCall, afailed (c.run j s.cfg).1 = true → (c.run j s.cfg).2 = s.cfg
  missing : ∀ (p : Path) (atm : Config),
    configGetAtom j s.cfg atm p.dotted true = (aENotfound, atm) ↔ newest s.layers p.segments = none
  integer : ∀ (p : Path) (val : BitVec 32), configGetInteger j s.cfg val p.dotted true =
    configTyped Config.asInteger (newestAtom s.layers p) val
  string : ∀ (p : Path) (val : Option (List Char)), configGetString j s.cfg val p.dotted true =
    configTyped Config.asString (newestAtom s.layers p) val
  boolean : ∀ (p : Path) (val : Bool), configGetBoolean j s.cfg val p.dotted true =
    configTyped Config.asBoolean (newestAtom s.layers p) val

/-! ## Values with another one in a place -/

section Places

variable {json item sub : Json} {key : List Char} {place segments rest : List (List Char)}
  {members : List (List Char × Json)}

theorem Json.find_append (json : Json) (segments rest : List (List Char)) :
    json.find (segments ++ rest) = (json.find segments).bind fun item => item.find rest := by
  simp only [Json.find, List.foldlM_append]
  rfl

theorem Json.find_cons (json : Json) (key : List Char) (rest : List (List Char)) :
    json.find (key :: rest) = (json.member? key).bind fun item => item.find rest := by
  simp only [Json.find, List.foldlM_cons]
  rfl

theorem member?_object (members : List (List Char × Json)) (key : List Char) :
    Json.member? (.object members) key = members.lookup key := rfl

theorem object_of_member? (h : json.member? key = some item) :
    ∃ members, json = .object members ∧ members.lookup key = some item := by
  cases json with
  | object members => exact ⟨members, rfl, h⟩
  | _ => cases h

theorem object_of_find (h : (json.find (segments ++ rest)) = some (.object members)) :
    ∃ members', json.find segments = some (.object members') := by
  rw [Json.find_append] at h
  obtain ⟨found, hfound, hrest⟩ := Option.bind_eq_some_iff.1 h
  cases rest with
  | nil =>
      obtain rfl : found = .object members := Option.some.inj hrest
      exact ⟨members, hfound⟩
  | cons key rest =>
      rw [Json.find_cons] at hrest
      obtain ⟨child, hchild, -⟩ := Option.bind_eq_some_iff.1 hrest
      obtain ⟨members', rfl, -⟩ := object_of_member? hchild
      exact ⟨members', hfound⟩

theorem lookup_putMember_self (h : members.lookup key = some item) (new : Json) :
    (putMember key new members).lookup key = some new := by
  induction members with
  | nil => cases h
  | cons member members ih =>
      rw [putMember]
      by_cases hkey : key = member.1
      · rw [if_pos hkey, List.lookup_cons_self]
      · rw [if_neg hkey]
        have hne : (key == member.1) = false := beq_eq_false_iff_ne.2 hkey
        rw [List.lookup_cons, hne] at h ⊢
        exact ih h

theorem lookup_putMember_of_ne {other : List Char} (hne : other ≠ key) (new : Json) :
    (putMember key new members).lookup other = members.lookup other := by
  induction members with
  | nil => rfl
  | cons member members ih =>
      rw [putMember]
      by_cases hkey : key = member.1
      · have hskip : (other == key) = false := beq_eq_false_iff_ne.2 hne
        rw [if_pos hkey, List.lookup_cons, List.lookup_cons, ← hkey, hskip]
      · rw [if_neg hkey, List.lookup_cons, List.lookup_cons, ih]

theorem putMember_same (h : members.lookup key = some item) : putMember key item members = members := by
  induction members with
  | nil => rfl
  | cons member members ih =>
      rw [putMember]
      by_cases hkey : key = member.1
      · subst hkey
        rw [List.lookup_cons_self, Option.some.injEq] at h
        rw [if_pos rfl, ← h]
      · have hne : (key == member.1) = false := beq_eq_false_iff_ne.2 hkey
        rw [List.lookup_cons, hne] at h
        rw [if_neg hkey, ih h]

theorem replaceAt_cons (h : members.lookup key = some sub) (item : Json) :
    Json.replaceAt (key :: rest) item (.object members) =
      .object (putMember key (Json.replaceAt rest item sub) members) := by
  simp only [Json.replaceAt, member?_object, h]

theorem replaceAt_same (h : json.find place = some sub) : Json.replaceAt place sub json = json := by
  induction place generalizing json with
  | nil => exact (Option.some.inj h).symm
  | cons key rest ih =>
      rw [Json.find_cons] at h
      obtain ⟨child, hchild, hrest⟩ := Option.bind_eq_some_iff.1 h
      obtain ⟨members, rfl, hlookup⟩ := object_of_member? hchild
      rw [replaceAt_cons hlookup, ih hrest, putMember_same hlookup]

/-- Below the place there is what is below the new value. -/
theorem find_replaceAt_below (h : json.find place = some sub) (item : Json)
    (segments : List (List Char)) :
    (Json.replaceAt place item json).find (place ++ segments) = item.find segments := by
  induction place generalizing json with
  | nil => rfl
  | cons key rest ih =>
      rw [Json.find_cons] at h
      obtain ⟨child, hchild, hrest⟩ := Option.bind_eq_some_iff.1 h
      obtain ⟨members, rfl, hlookup⟩ := object_of_member? hchild
      rw [replaceAt_cons hlookup, List.cons_append, Json.find_cons, member?_object,
        lookup_putMember_self hlookup, Option.bind_some]
      exact ih hrest

theorem find_replaceAt_elsewhere (h : json.find place = some sub) (item : Json)
    (hbelow : ¬ place <+: segments) (habove : ¬ segments <+: place) :
    (Json.replaceAt place item json).find segments = json.find segments := by
  induction place generalizing json segments with
  | nil => exact absurd List.nil_prefix hbelow
  | cons key rest ih =>
      rw [Json.find_cons] at h
      obtain ⟨child, hchild, hrest⟩ := Option.bind_eq_some_iff.1 h
      obtain ⟨members, rfl, hlookup⟩ := object_of_member? hchild
      cases segments with
      | nil => exact absurd List.nil_prefix habove
      | cons other segments =>
          rw [replaceAt_cons hlookup, Json.find_cons, Json.find_cons, member?_object,
            member?_object]
          by_cases hkey : other = key
          · subst hkey
            rw [lookup_putMember_self hlookup, hlookup, Option.bind_some, Option.bind_some]
            refine ih hrest (fun hp => hbelow ?_) fun hp => habove ?_
            · exact List.cons_prefix_cons.2 ⟨rfl, hp⟩
            · exact List.cons_prefix_cons.2 ⟨rfl, hp⟩
          · rw [lookup_putMember_of_ne hkey]

end Places

/-! ## One more layer -/

section Layers

variable {j : Jansson} {json : Json} {place segments : List (List Char)}
  {sub other merged : List (List Char × Json)} {layers : List (List (List Char) × Json)}

theorem Alike.of_object {members : List (List Char × Json)} {found : Option Json}
    (h : Alike (some (.object members)) found) (members' : List (List Char × Json)) :
    Alike (some (.object members')) found := by
  cases h with
  | same _ => exact .objects members' members
  | objects _ members'' => exact .objects members' members''

/-- **A layer** goes before the older ones where it has something to say. -/
theorem newest_cons (h : json.find place = some (.object sub))
    (hmerged : ∀ key, merged.lookup key = (other.lookup key).or (sub.lookup key))
    (hlayers : Alike (json.find segments) (newest layers segments)) :
    Alike ((Json.replaceAt place (.object merged) json).find segments)
      (newest ((place, .object other) :: layers) segments) := by
  have hplace : (Json.replaceAt place (.object merged) json).find place = some (.object merged) := by
    have hbelow := find_replaceAt_below h (.object merged) []
    rwa [List.append_nil] at hbelow
  -- at the place and above it there is an object before and after
  have habove : segments <+: place →
      Alike ((Json.replaceAt place (.object merged) json).find segments) (newest layers segments) := by
    rintro ⟨rest, rfl⟩
    obtain ⟨members, hbefore⟩ := object_of_find h
    obtain ⟨members', hafter⟩ := object_of_find hplace
    rw [hbefore] at hlayers
    rw [hafter]
    exact hlayers.of_object members'
  rw [newest]
  split
  · next key rest hdrop =>
      obtain ⟨place', rfl, hsame⟩ := List.dropPrefix?_eq_some_iff.1 hdrop
      obtain rfl := eq_of_beq hsame
      rw [find_replaceAt_below h, Json.find_cons, member?_object, member?_object,
        hmerged]
      cases hother : other.lookup key with
      | some child => exact .same _
      | none =>
          rw [Json.find_append, h, Option.bind_some, Json.find_cons, member?_object] at hlayers
          exact hlayers
  · next hnot =>
      by_cases hprefix : segments <+: place
      · exact habove hprefix
      · have hbelow : ¬ place <+: segments := by
          rintro ⟨rest, rfl⟩
          cases rest with
          | nil =>
              rw [List.append_nil] at hprefix
              exact hprefix List.prefix_rfl
          | cons key rest =>
              exact hnot key rest (List.dropPrefix?_append_of_beq _ (beq_self_eq_true place))
        rw [find_replaceAt_elsewhere h _ hbelow hprefix]
        exact hlayers

end Layers

/-! ## The calls -/

section Calls

variable {j : Jansson} {cfg : Json}

/-- A value that is added to an object is an object, and its members come before those there were. -/
theorem configMerge_cases (hj : j.Documented) (members : List (List Char × Json)) (json : Option Json) :
    (∃ other merged, json = some (.object other) ∧
      configMerge j (.nested (.object members)) json = (aOk, .nested (.object merged)) ∧
      ∀ key, merged.lookup key = (other.lookup key).or (members.lookup key)) ∨
    configMerge j (.nested (.object members)) json = (aEInval, .nested (.object members)) := by
  cases json with
  | none => exact .inr rfl
  | some json =>
      by_cases hobject : ∃ other, json = .object other
      · obtain ⟨other, rfl⟩ := hobject
        obtain ⟨merged, hupdate, hmerged⟩ := hj.updates members other
        exact .inl ⟨other, merged, rfl, by rw [configMerge, hupdate]; rfl, hmerged⟩
      · have hrefused := hj.refuses (.object members) json fun other heq => hobject ⟨other, heq⟩
        exact .inr (by rw [configMerge, hrefused]; rfl)

/-- **A call** adds a layer to an object in the configuration, or fails and changes nothing. -/
inductive ConfigCall.Outcome (j : Jansson) (cfg : Json) (c : ConfigCall) : Prop
  | added {place : List (List Char)} {sub other merged : List (List Char × Json)} :
      c.layer j = some (place, .object other) → cfg.find place = some (.object sub) →
      (∀ key, merged.lookup key = (other.lookup key).or (sub.lookup key)) →
      c.run j cfg = (aOk, Json.replaceAt place (.object merged) cfg) → Outcome j cfg c
  | refused {ret : AResult} : afailed ret = true → c.run j cfg = (ret, cfg) → Outcome j cfg c

theorem inPlace_same {place : List (List Char)} {sub : Json} (h : cfg.find place = some sub)
    (ret : AResult) : inPlace cfg place (ret, .nested sub) = (ret, cfg) := by
  simp only [inPlace, replaceAt_same h]

theorem outcome_of_merge (hj : j.Documented) {c : ConfigCall} {place : List (List Char)}
    {sub : List (List Char × Json)} (h : cfg.find place = some (.object sub)) {json : Option Json}
    (hlayer : c.layer j = json.map fun json => (place, json))
    (hrun : c.run j cfg = inPlace cfg place (configMerge j (.nested (.object sub)) json)) :
    c.Outcome j cfg := by
  rcases configMerge_cases hj sub json with ⟨other, merged, rfl, hmerge, hmerged⟩ | hmerge
  · rw [hmerge] at hrun
    exact .added hlayer h hmerged hrun
  · rw [hmerge, inPlace_same h] at hrun
    exact .refused (afailed_aresultError _ _) hrun

theorem outcome_of_addString (hj : j.Documented) {c : ConfigCall} {place : List (List Char)}
    {sub : List (List Char × Json)} (h : cfg.find place = some (.object sub)) {jsonString : List Char}
    (hlayer : c.layer j = (j.loads jsonString).map fun json => (place, json))
    (hrun : c.run j cfg = inPlace cfg place (configAddString j (.nested (.object sub)) jsonString)) :
    c.Outcome j cfg := by
  by_cases hempty : jsonString = []
  · rw [configAddString, if_pos hempty, inPlace_same h] at hrun
    exact .refused (afailed_aresultError _ _) hrun
  · rw [configAddString, if_neg hempty] at hrun
    exact outcome_of_merge hj h hlayer hrun

theorem inPlace_addString {atm : Config} (hatm : ∀ nested, atm ≠ .nested nested)
    (place : List (List Char)) (jsonString : List Char) :
    ∃ ret, afailed ret = true ∧ inPlace cfg place (configAddString j atm jsonString) = (ret, cfg) := by
  have hscalar : ∀ ret, inPlace cfg place (ret, atm) = (ret, cfg) := by
    intro ret
    cases atm with
    | nested nested => exact absurd rfl (hatm nested)
    | _ => rfl
  have hmerge : ∀ json, configMerge j atm json = (aEInval, atm) := by
    intro json
    cases atm with
    | nested nested => exact absurd rfl (hatm nested)
    | _ => rfl
  by_cases hempty : jsonString = []
  · rw [configAddString, if_pos hempty, hscalar]
    exact ⟨_, afailed_aresultError _ _, rfl⟩
  · rw [configAddString, if_neg hempty, hmerge, hscalar]
    exact ⟨_, afailed_aresultError _ _, rfl⟩

/-- What `config_get` answers to a path. -/
theorem configGet_path (hj : j.GetsMembers) (cfg : Json) (p : Path) (strdup : Bool) :
    (∃ ret, afailed ret = true ∧ configGet j cfg p.dotted strdup = .error ret) ∨
      ∃ item, cfg.find p.segments = some item ∧
        configGet j cfg p.dotted strdup = .ok (configFromJson item) := by
  cases strdup with
  | false =>
      have hne : p.dotted ≠ [] := intercalate_ne_nil p.ne_nil p.segment_ne
      refine .inl ⟨aENomem, afailed_aresultError _ _, ?_⟩
      rw [configGet, if_neg hne, if_pos rfl]
  | true =>
      rw [configGet_dotted hj]
      cases hlookup : p.lookup cfg with
      | none => exact .inl ⟨_, afailed_aresultError _ _, rfl⟩
      | some item => exact .inr ⟨item, hlookup, rfl⟩

/-- **Every call** on an object has one of these outcomes. -/
theorem ConfigCall.outcome (hj : j.Documented) (members : List (List Char × Json)) (c : ConfigCall) :
    c.Outcome j (.object members) := by
  cases c with
  | add filename loaded =>
      by_cases hname : filename = []
      · have hrun : ConfigCall.run j (.object members) (.add filename loaded) =
            (aEBadargs, .object members) := by
          rw [ConfigCall.run, configAdd, if_pos hname, inPlace_same rfl]
        exact .refused (afailed_aresultError _ _) hrun
      · exact outcome_of_merge hj rfl rfl (by rw [ConfigCall.run, configAdd, if_neg hname])
  | addString jsonString => exact outcome_of_addString hj rfl rfl rfl
  | addStringAt path strdup jsonString =>
      rcases configGet_path hj.toGetsMembers (.object members) path strdup with
        ⟨ret, hret, hget⟩ | ⟨item, hitem, hget⟩
      · exact .refused hret (by rw [ConfigCall.run, hget])
      · have hrun : ConfigCall.run j (.object members) (.addStringAt path strdup jsonString) =
            inPlace (.object members) path.segments
              (configAddString j (configFromJson item) jsonString) := by
          rw [ConfigCall.run, hget]
        by_cases hobject : ∃ sub, item = .object sub
        · obtain ⟨sub, rfl⟩ := hobject
          exact outcome_of_addString hj hitem rfl hrun
        · have hscalar : ∀ nested, configFromJson item ≠ .nested nested := by
            intro nested heq
            cases item with
            | object sub => exact hobject ⟨sub, rfl⟩
            | _ => cases heq
          obtain ⟨ret, hret, hplace⟩ := inPlace_addString (j := j) hscalar path.segments jsonString
          exact .refused hret (hrun.trans hplace)

end Calls

/-! ## Runs -/

section Runs

variable {j : Jansson}

/-- The configuration is an object, and its layers say what is in it. -/
structure ConfigRun.Inv (s : ConfigRun) : Prop where
  object : ∃ members, s.cfg = .object members
  alike : ∀ segments, segments ≠ [] → Alike (s.cfg.find segments) (newest s.layers segments)

/-- **One call** keeps the layers right. -/
theorem inv_configStep (hj : j.Documented) (s : ConfigRun) (c : ConfigCall) (s' : ConfigRun)
    (h : s.Inv) (hstep : configStep j s c = some s') : s'.Inv := by
  obtain ⟨members, hmembers⟩ := h.object
  have houtcome := ConfigCall.outcome hj members c
  rw [← hmembers] at houtcome
  cases houtcome with
  | @added place sub other merged hlayer hplace hmerged hrun =>
      simp only [configStep, hrun, hlayer, afailed_aOk, Option.some.injEq] at hstep
      subst hstep
      refine ⟨?_, fun segments hne => newest_cons hplace hmerged (h.alike segments hne)⟩
      cases place with
      | nil => exact ⟨merged, rfl⟩
      | cons key rest =>
          have hroot : ∃ members', (Json.replaceAt (key :: rest) (.object merged) s.cfg).find [] =
              some (.object members') := object_of_find (find_replaceAt_below hplace (.object merged) [])
          obtain ⟨members', hroot⟩ := hroot
          exact ⟨members', Option.some.inj hroot⟩
  | refused hret hrun =>
      simp only [configStep, hrun, hret, if_true, Option.some.injEq] at hstep
      subst hstep
      exact h

/-- A lookup answers what the newest layer says, or both are objects. -/
theorem ConfigRun.Inv.found (hj : j.GetsMembers) {s : ConfigRun} (h : s.Inv) (p : Path) :
    configGet j s.cfg p.dotted true = newestAtom s.layers p ∨
      ∃ members members', configGet j s.cfg p.dotted true = .ok (.nested (.object members)) ∧
        newestAtom s.layers p = .ok (.nested (.object members')) := by
  have halike := h.alike p.segments p.ne_nil
  have hlookup : p.lookup s.cfg = s.cfg.find p.segments := rfl
  rw [configGet_dotted hj, hlookup, newestAtom]
  generalize s.cfg.find p.segments = found at halike
  generalize newest s.layers p.segments = expected at halike
  cases halike with
  | same _ => exact .inl rfl
  | objects members members' => exact .inr ⟨members, members', rfl, rfl⟩

/-- A typed getter does not tell objects apart. -/
theorem ConfigRun.Inv.getter (hj : j.GetsMembers) {α : Type*} {s : ConfigRun} (h : s.Inv) (p : Path)
    {asked : Config → Option α} (hasked : ∀ nested, asked (.nested nested) = none) (val : α) :
    configTyped asked (configGet j s.cfg p.dotted true) val =
      configTyped asked (newestAtom s.layers p) val := by
  rcases h.found hj p with hsame | ⟨members, members', hfound, hexpected⟩
  · rw [hsame]
  · simp only [hfound, hexpected, configTyped, hasked]

theorem ConfigRun.Inv.layered {s : ConfigRun} (hj : j.Documented) (h : s.Inv) : Layered j s where
  refused := by
    intro c hfailed
    obtain ⟨members, hmembers⟩ := h.object
    have houtcome := ConfigCall.outcome hj members c
    rw [← hmembers] at houtcome
    cases houtcome with
    | added _ _ _ hrun =>
        simp only [hrun, afailed_aOk, Bool.false_eq_true] at hfailed
    | refused _ hrun => rw [hrun]
  missing := by
    intro p atm
    have hatom : newest s.layers p.segments = none ↔ newestAtom s.layers p = .error aENotfound := by
      unfold newestAtom
      cases newest s.layers p.segments with
      | none => exact iff_of_true rfl rfl
      | some item => exact iff_of_false (by simp) (by simp)
    have herror : configGetAtom j s.cfg atm p.dotted true = (aENotfound, atm) ↔
        configGet j s.cfg p.dotted true = .error aENotfound := by
      unfold configGetAtom
      cases configGet j s.cfg p.dotted true with
      | error ret => simp
      | ok found => simp [(aresultError_ne_aOk _ _).symm, aENotfound]
    rw [hatom, herror]
    rcases h.found hj.toGetsMembers p with hsame | ⟨members, members', hfound, hexpected⟩
    · rw [hsame]
    · rw [hfound, hexpected]
      exact iff_of_false (by simp) (by simp)
  integer := fun p val => h.getter hj.toGetsMembers p (fun _ => rfl) val
  string := fun p val => h.getter hj.toGetsMembers p (fun _ => rfl) val
  boolean := fun p val => h.getter hj.toGetsMembers p (fun _ => rfl) val

/-- **After every run** of additions to a new configuration, of which any may fail, a path leads to what
the newest layer says. -/
theorem layered_of_run (hj : j.Documented) {calloc jsonObject : Bool} {cfg : Json}
    (hnew : configNew calloc jsonObject = (aOk, some (.nested cfg))) (calls : List ConfigCall)
    {s : ConfigRun} (hrun : exec (configStep j) ⟨cfg, []⟩ calls = some s) : Layered j s := by
  have hempty : cfg = .object [] := by
    unfold configNew at hnew
    split at hnew
    · cases hnew
    · split at hnew
      · cases hnew
      · cases hnew
        rfl
  subst hempty
  have hinit : ConfigRun.Inv ⟨.object [], []⟩ := by
    refine ⟨⟨[], rfl⟩, fun segments hne => ?_⟩
    obtain ⟨key, rest, rfl⟩ := List.exists_cons_of_ne_nil hne
    rw [Json.find_cons, member?_object]
    exact .same none
  have hinv : s.Inv := exec_invariant (inv_configStep hj) hinit hrun
  exact hinv.layered hj

end Runs

/-- A library that can parse two strings. -/
def twoStrings : Jansson where
  objectGet := Json.member?
  loads := fun jsonString =>
    if jsonString = "\x7b\"level\": 5\x7d".toList then some (.object [("level".toList, .integer 5)])
    else if jsonString = "[]".toList then some (.array [])
    else none
  objectUpdate := fun object other =>
    match object, other with
    | .object members, .object members' =>
        (true, .object (members' ++ members.filter fun m => (members'.lookup m.1).isNone))
    | _, _ => (false, object)

theorem lookup_filter_isNone {members members' : List (List Char × Json)} {key : List Char}
    (h : members'.lookup key = none) :
    (members.filter fun m => (members'.lookup m.1).isNone).lookup key = members.lookup key := by
  induction members with
  | nil => rfl
  | cons member members ih =>
      rw [List.filter_cons, List.lookup_cons]
      by_cases hkey : key = member.1
      · rw [← hkey, h, Option.isNone_none, if_pos rfl, List.lookup_cons, ← hkey]
        simp only [beq_self_eq_true]
      · have hne : (key == member.1) = false := beq_eq_false_iff_ne.2 hkey
        rw [hne]
        split
        · rw [List.lookup_cons, hne]
          exact ih
        · exact ih

theorem twoStrings_documented : twoStrings.Documented where
  object := membersOnly_getsMembers.object
  other := membersOnly_getsMembers.other
  updates := by
    intro object other
    refine ⟨_, rfl, fun key => ?_⟩
    rw [List.lookup_append]
    cases hother : other.lookup key with
    | none => rw [lookup_filter_isNone hother]
    | some item => rfl
  refuses := by
    intro object other hother
    cases other with
    | object members => exact absurd rfl (hother members)
    | _ => cases object <;> rfl

/-- What is in one file, and in another. -/
def baseMembers : List (List Char × Json) :=
  [("log".toList, .object [("name".toList, .string "feed".toList), ("level".toList, .integer 3)]),
    ("cores".toList, .integer 4)]

def siteMembers : List (List Char × Json) :=
  [("log".toList, .object [("name".toList, .string "site".toList)])]

/-- A file, a string that is added to an object of it, a string that is no object, and another file. -/
def sampleCalls : List ConfigCall :=
  [.add "base.json".toList (some (.object baseMembers)),
   .addStringAt logPath true "\x7b\"level\": 5\x7d".toList,
   .addString "[]".toList,
   .add "site.json".toList (some (.object siteMembers))]

/-- The last file hides the level that was set before it, and not the cores. -/
theorem layered_of_run_sampleCalls :
    ∃ s, exec (configStep twoStrings) ⟨.object [], []⟩ sampleCalls = some s ∧ s.layers.length = 3 ∧
      newest s.layers ["log".toList, "level".toList] = none ∧
      newest s.layers ["cores".toList] = some (.integer 4) ∧ Layered twoStrings s := by
  -- the path goes through a loop that is not evaluated but looked up
  have hget : configGet twoStrings (.object baseMembers) logPath.dotted true =
      .ok (.nested (.object [("name".toList, .string "feed".toList), ("level".toList, .integer 3)])) := by
    rw [configGet_dotted twoStrings_documented.toGetsMembers]
    rfl
  have hfirst : configStep twoStrings ⟨.object [], []⟩
      (.add "base.json".toList (some (.object baseMembers))) =
        some ⟨.object baseMembers, [([], .object baseMembers)]⟩ := rfl
  have hrun : ∃ s, exec (configStep twoStrings) ⟨.object [], []⟩ sampleCalls = some s ∧
      s.layers.length = 3 ∧ newest s.layers ["log".toList, "level".toList] = none ∧
      newest s.layers ["cores".toList] = some (.integer 4) := by
    rw [sampleCalls, exec, hfirst, Option.bind_some, exec, configStep, ConfigCall.run, hget]
    exact ⟨_, rfl, rfl, rfl, rfl⟩
  have hnew : configNew true true = (aOk, some (.nested (.object []))) := rfl
  obtain ⟨s, hexec, hlength, hhidden, hcores⟩ := hrun
  exact ⟨s, hexec, hlength, hhidden, hcores,
    layered_of_run twoStrings_documented hnew sampleCalls hexec⟩

end Tsl
