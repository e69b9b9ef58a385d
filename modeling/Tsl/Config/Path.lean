import Tsl.Config

set_option autoImplicit false

/-! # Paths into a configuration

`config_get` of `tsl/config/engine.c` cuts a dotted path into its segments and looks them up one after
another. Where no segment is empty that is all it does (`configGetAtom_lookup`), so a path can be
followed in two parts, the second from the atom that the first leads to (`configGetAtom_composes`).
`CONFIG_GET_PFX` of `engine.h`, which puts a prefix before a path, rests on that. -/

namespace Tsl

/-! ## The code -/

/-- `config_get` with the caller's atom: the result and the atom, which held `atm`. -/
def configGetAtom (j : Jansson) (cfg : Json) (atm : Config) (itemId : List Char) (strdup : Bool) :
    AResult × Config :=
  match configGet j cfg itemId strdup with
  | .error ret => (ret, atm)
  | .ok found => (aOk, found)

/-- `CONFIG_GET_PFX`; `alloc` is whether the whole path could be allocated. -/
def configGetPfx (j : Jansson) (cfg : Json) (tgt : Config) (pfx : Option (List Char))
    (itemId : List Char) (alloc strdup : Bool) : AResult × Config :=
  if alloc = Bool.false then (aENomem, tgt)
  else
    match pfx with
    | some pfx => configGetAtom j cfg tgt (pfx ++ '.' :: itemId) strdup
    | none => configGetAtom j cfg tgt itemId strdup

/-! ## Paths -/

/-- A path by its segments, none of which is empty. -/
structure Path where
  segments : List (List Char)
  ne_nil : segments ≠ []
  segment_ne : ∀ key ∈ segments, key ≠ []
  no_dot : ∀ key ∈ segments, '.' ∉ key

namespace Path

/-- The path as it is written. -/
def dotted (p : Path) : List Char := List.intercalate ['.'] p.segments

/-- One path behind another. -/
def append (p q : Path) : Path where
  segments := p.segments ++ q.segments
  ne_nil := by simp [p.ne_nil]
  segment_ne := fun key hkey => (List.mem_append.1 hkey).elim (p.segment_ne key) (q.segment_ne key)
  no_dot := fun key hkey => (List.mem_append.1 hkey).elim (p.no_dot key) (q.no_dot key)

/-- The value that the segments lead to, one after another. -/
def lookup (p : Path) (json : Json) : Option Json := p.segments.foldlM Json.member? json

/-- A segment is looked up in a value that has no such member, or is no object. -/
def Breaks (p : Path) (json : Json) : Prop :=
  ∃ before key after item, p.segments = before ++ key :: after ∧
    before.foldlM Json.member? json = some item ∧ item.member? key = none

end Path

section Lookup

variable {j : Jansson} {json item : Json} {p q : Path}

theorem intercalate_ne_nil {segments : List (List Char)} (hne : segments ≠ [])
    (hkeys : ∀ key ∈ segments, key ≠ []) : List.intercalate ['.'] segments ≠ [] := by
  obtain ⟨key, rest, rfl⟩ := List.exists_cons_of_ne_nil hne
  have hkey := hkeys key List.mem_cons_self
  cases rest with
  | nil => rwa [List.intercalate_singleton]
  | cons key' rest => simp [List.intercalate_cons_cons, hkey]

theorem configWalk_intercalate (hj : j.GetsMembers) {segments : List (List Char)} (hkeys : ∀ key ∈ segments, key ≠ [])
    (hdots : ∀ key ∈ segments, '.' ∉ key) (json : Json) :
    configWalk j json (List.intercalate ['.'] segments) = segments.foldlM Json.member? json := by
  induction segments generalizing json with
  | nil => exact configWalk_nil
  | cons key rest ih =>
      have hkey := hkeys key List.mem_cons_self
      have hdot := hdots key List.mem_cons_self
      have hrest := ih (fun k hk => hkeys k (List.mem_cons_of_mem _ hk))
        (fun k hk => hdots k (List.mem_cons_of_mem _ hk))
      rw [List.foldlM_cons]
      cases rest with
      | nil =>
          -- the last segment, with nothing behind it
          rw [List.intercalate_singleton, configWalk, if_neg hkey, hj.get_eq]
          rcases path_split key with ⟨-, htake, hdrop⟩ | ⟨-, hsplit⟩
          · rw [htake, hdrop]
            cases json.member? key with
            | none => rfl
            | some item => exact configWalk_nil
          · rw [hsplit] at hdot
            exact absurd (by simp) hdot
      | cons key' rest =>
          rw [List.intercalate_cons_cons, List.append_assoc, List.singleton_append, configWalk,
            if_neg (by simp), hj.get_eq, takeWhile_key hdot, dropWhile_key hdot, List.tail_cons]
          cases json.member? key with
          | none => rfl
          | some item => exact hrest item

theorem Path.lookup_eq_none_iff : p.lookup json = none ↔ p.Breaks json := by
  unfold Path.lookup Path.Breaks
  generalize p.segments = segments
  induction segments generalizing json with
  | nil => simp
  | cons key rest ih =>
      rw [List.foldlM_cons]
      constructor
      · intro hnone
        cases hkey : json.member? key with
        | none => exact ⟨[], key, rest, json, rfl, rfl, hkey⟩
        | some item =>
            rw [hkey] at hnone
            obtain ⟨before, k, after, found, rfl, hwalk, hmissing⟩ := ih.1 hnone
            refine ⟨key :: before, k, after, found, rfl, ?_, hmissing⟩
            rw [List.foldlM_cons, hkey]
            exact hwalk
      · rintro ⟨before, k, after, found, hsplit, hwalk, hmissing⟩
        cases before with
        | nil =>
            obtain ⟨rfl, rfl⟩ := List.cons.inj hsplit
            obtain rfl := Option.some.inj hwalk
            rw [hmissing]
            rfl
        | cons b before =>
            obtain ⟨rfl, rfl⟩ := List.cons.inj hsplit
            rw [List.foldlM_cons] at hwalk
            obtain ⟨item, hkey, hrest⟩ := Option.bind_eq_some_iff.1 hwalk
            rw [hkey]
            exact ih.2 ⟨before, k, after, found, rfl, hrest, hmissing⟩

theorem Path.dotted_append (p q : Path) : (p.append q).dotted = p.dotted ++ '.' :: q.dotted := by
  obtain ⟨key, rest, hq⟩ := List.exists_cons_of_ne_nil q.ne_nil
  have hp := p.ne_nil
  unfold Path.dotted Path.append
  simp only
  generalize p.segments = segments at hp
  induction segments with
  | nil => exact absurd rfl hp
  | cons k segments ih =>
      cases segments with
      | nil => rw [hq, List.singleton_append, List.intercalate_cons_cons, List.intercalate_singleton,
          List.append_assoc, List.singleton_append]
      | cons k' segments =>
          rw [List.cons_append, List.cons_append, List.intercalate_cons_cons, ← List.cons_append,
            ih (List.cons_ne_nil _ _), List.intercalate_cons_cons]
          simp only [List.append_assoc]

theorem Path.lookup_append (p q : Path) (json : Json) :
    (p.append q).lookup json = (p.lookup json).bind q.lookup := by
  simp only [Path.lookup, Path.append, List.foldlM_append]
  rfl

/-- **A lookup** by a path: the value that the segments lead to, or `A_E_NOTFOUND`. -/
theorem configGet_dotted (hj : j.GetsMembers) (cfg : Json) (p : Path) :
    configGet j cfg p.dotted true =
      match p.lookup cfg with
      | none => .error aENotfound
      | some item => .ok (configFromJson item) := by
  have hne : p.dotted ≠ [] := intercalate_ne_nil p.ne_nil p.segment_ne
  have hwalk : configWalk j cfg p.dotted = p.lookup cfg :=
    configWalk_intercalate hj p.segment_ne p.no_dot cfg
  cases hlookup : p.lookup cfg with
  | none => rw [configGet, if_neg hne, if_neg (by decide), hwalk, hlookup]
  | some item => rw [configGet, if_neg hne, if_neg (by decide), hwalk, hlookup]

theorem configGetAtom_of_lookup (hj : j.GetsMembers) {cfg : Json} (hlookup : p.lookup cfg = some item) (atm : Config) :
    configGetAtom j cfg atm p.dotted true = (aOk, configFromJson item) := by
  rw [configGetAtom, configGet_dotted hj, hlookup]

theorem configGetAtom_of_breaks (hj : j.GetsMembers) {cfg : Json} (hbreaks : p.Breaks cfg) (atm : Config) :
    configGetAtom j cfg atm p.dotted true = (aENotfound, atm) := by
  rw [configGetAtom, configGet_dotted hj, Path.lookup_eq_none_iff.2 hbreaks]

/-- The value behind a prefix is looked up in the atom that the prefix leads to, if it is nested. -/
theorem configGetAtom_append (hj : j.GetsMembers) {cfg nested : Json} {atm : Config}
    (hfront : configGetAtom j cfg atm p.dotted true = (aOk, .nested nested)) (q : Path) :
    configGetAtom j cfg atm (p.append q).dotted true = configGetAtom j nested atm q.dotted true := by
  cases hlookup : p.lookup cfg with
  | none =>
      rw [configGetAtom_of_breaks hj (Path.lookup_eq_none_iff.1 hlookup)] at hfront
      cases hfront
  | some item =>
      rw [configGetAtom_of_lookup hj hlookup, Prod.mk.injEq] at hfront
      obtain rfl : item = nested := by
        cases item <;> cases hfront.2
        rfl
      rw [configGetAtom, configGetAtom, configGet_dotted hj, configGet_dotted hj, Path.lookup_append,
        hlookup, Option.bind_some]

theorem configGetAtom_append_missing (hj : j.GetsMembers) {cfg : Json} {atm : Config}
    (hfront : ∀ nested, configGetAtom j cfg atm p.dotted true ≠ (aOk, .nested nested)) (q : Path) :
    configGetAtom j cfg atm (p.append q).dotted true = (aENotfound, atm) := by
  refine configGetAtom_of_breaks hj (Path.lookup_eq_none_iff.1 ?_) atm
  rw [Path.lookup_append]
  cases hlookup : p.lookup cfg with
  | none => rfl
  | some item =>
      rw [configGetAtom_of_lookup hj hlookup] at hfront
      obtain ⟨key, rest, hq⟩ := List.exists_cons_of_ne_nil q.ne_nil
      have hnone : item.member? key = none := by
        cases item with
        | object members => exact absurd rfl (hfront (.object members))
        | _ => rfl
      rw [Option.bind_some, Path.lookup, hq, List.foldlM_cons, hnone]
      rfl

end Lookup

/-- **Lookups compose.** A path leads to what its segments lead to, looked up one after another, and
to `A_E_NOTFOUND` exactly if one of them is missing; a path in two parts leads where the second part
leads from the nested atom of the first. Without memory for the path the atom stays too. -/
theorem configGetAtom_composes {j : Jansson} (hj : j.GetsMembers) (cfg : Json) (atm : Config)
    (p q : Path) :
    (∀ item, p.lookup cfg = some item →
      configGetAtom j cfg atm p.dotted true = (aOk, configFromJson item)) ∧
    (configGetAtom j cfg atm p.dotted true = (aENotfound, atm) ↔ p.Breaks cfg) ∧
    (p.lookup cfg = none ↔ p.Breaks cfg) ∧
    (∀ nested, configGetAtom j cfg atm p.dotted true = (aOk, .nested nested) →
      configGetAtom j cfg atm (p.dotted ++ '.' :: q.dotted) true =
        configGetAtom j nested atm q.dotted true) ∧
    ((∀ nested, configGetAtom j cfg atm p.dotted true ≠ (aOk, .nested nested)) →
      configGetAtom j cfg atm (p.dotted ++ '.' :: q.dotted) true = (aENotfound, atm)) ∧
    configGetAtom j cfg atm p.dotted false = (aENomem, atm) := by
  rw [← Path.dotted_append]
  refine ⟨fun item hitem => configGetAtom_of_lookup hj hitem atm, ⟨fun hnot => ?_, fun hbreaks =>
    configGetAtom_of_breaks hj hbreaks atm⟩, Path.lookup_eq_none_iff, fun nested hfront =>
    configGetAtom_append hj hfront q, fun hfront => configGetAtom_append_missing hj hfront q, ?_⟩
  · by_contra hbreaks
    cases hlookup : p.lookup cfg with
    | none => exact hbreaks (Path.lookup_eq_none_iff.1 hlookup)
    | some item =>
        rw [configGetAtom_of_lookup hj hlookup, Prod.mk.injEq] at hnot
        exact aresultError_ne_aOk _ _ hnot.1.symm
  · have hne : p.dotted ≠ [] := intercalate_ne_nil p.ne_nil p.segment_ne
    rw [configGetAtom, configGet, if_neg hne, if_pos rfl]

/-- The path of one segment. -/
def logPath : Path where
  segments := ["log".toList]
  ne_nil := by decide
  segment_ne := by decide
  no_dot := by decide

def namePath : Path where
  segments := ["name".toList]
  ne_nil := by decide
  segment_ne := by decide
  no_dot := by decide

/-- The name is looked up behind `log`, and in the object that `log` leads to. -/
theorem configGetAtom_composes_logName :
    ∃ nested, configGetAtom membersOnly mixedConfig .null logPath.dotted true = (aOk, .nested nested) ∧
      configGetAtom membersOnly nested .null namePath.dotted true = (aOk, .string "feed".toList) ∧
      configGetAtom membersOnly mixedConfig .null (logPath.dotted ++ '.' :: namePath.dotted) true =
        (aOk, .string "feed".toList) := by
  have hlog : logPath.lookup mixedConfig =
      some (.object [("name".toList, .string "feed".toList)]) := rfl
  have hname : namePath.lookup (.object [("name".toList, .string "feed".toList)]) =
      some (.string "feed".toList) := rfl
  obtain ⟨hfound, -, -, hbehind, -⟩ :=
    configGetAtom_composes membersOnly_getsMembers mixedConfig .null logPath namePath
  have hinner := configGetAtom_of_lookup membersOnly_getsMembers hname .null
  exact ⟨_, hfound _ hlog, hinner, (hbehind _ (hfound _ hlog)).trans hinner⟩

theorem configGetPfx_some (j : Jansson) (cfg : Json) (tgt : Config) (p q : Path) (strdup : Bool) :
    configGetPfx j cfg tgt (some p.dotted) q.dotted true strdup =
      configGetAtom j cfg tgt (p.append q).dotted strdup := by
  rw [configGetPfx, if_neg (by decide), Path.dotted_append]

end Tsl
