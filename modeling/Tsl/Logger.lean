import Tsl.List
import Tsl.RbTree.Map
import Tsl.WorkQueue

set_option autoImplicit false

/-! # Message handlers of a logger

`tsl/logger/logger.c`: a logger endpoint has a red-black tree of message handlers, by message type. A
handler is registered while the logger is inactive, and looked up for every message.

The key of a handler is its message type, passed as a pointer, and the comparison of two keys is their
difference as a C `int`, taken with wrap-around. That is an order only among types that lie within
2^31 consecutive ones (`orders_iff_halfWindow`), and a red-black tree needs an order. A handler has an
address in `η`, which is also the one of its `tnode`; `ε` are the addresses of endpoints, and `φ` the
functions that emit messages. -/

namespace Tsl

open Lib RBTree RbTree

variable {ρ η ε φ : Type} {μ : Type*}

/-! ## The code -/

/-- `enum logger_state`. -/
inductive LoggerState
  | inactive
  | starting
  | running
  | terminated
deriving DecidableEq

/-- `struct logger_message_handler`, without its nodes in the tree and on the list. -/
structure LoggerMessageHandler (ε φ : Type) where
  messageType : BitVec 32
  state : Option ε
  dispatch : Option φ

/-- The entries of the list of handlers: its head in the endpoint, and the `lnode` of each. -/
inductive LoggerListNode (η : Type)
  | head
  | lnode (hdlr : η)
deriving DecidableEq

/-- `struct logger_endpoint`, with the memory of all handlers. -/
structure LoggerEndpoint (ρ η ε φ : Type) where
  outQueue : WorkQueue ρ
  inQueue : WorkQueue ρ
  messageHandlers : RbTree η (BitVec 64)
  messageHandlerList : ListMem (LoggerListNode η)
  state : LoggerState
  handler : η → LoggerMessageHandler ε φ

/-- `__logger_cmp_message_handlers`. -/
def loggerCmpMessageHandlers (lhs rhs : BitVec 64) : ℤ :=
  let nlhs := lhs.setWidth 32
  let nrhs := rhs.setWidth 32
  (nlhs - nrhs).toInt

/-- `(void *)(uint64_t)message_type`. -/
def messageKey (messageType : BitVec 32) : BitVec 64 := messageType.setWidth 64

variable [DecidableEq η]

/-- `logger_initialize`. The three flags say which of its allocations succeed; the rest is what is in
    memory. `work_endpoint_init` and `rb_tree_new` only check their arguments, which are not `NULL`. -/
def loggerInitialize (ck : CkRing ρ μ) (queueDepth : BitVec 32) (calloc bufferOut bufferIn : Bool)
    (node : η → RbTreeNode η (BitVec 64)) (list : ListMem (LoggerListNode η))
    (handler : η → LoggerMessageHandler ε φ) : AResult × Option (LoggerEndpoint ρ η ε φ) :=
  if calloc = false then (aENomem, none)
  else
    match workQueueNew ck queueDepth.toNat bufferOut with
    | (ret, none) => (ret, none)
    | (_, some outQueue) =>
        match workQueueNew ck queueDepth.toNat bufferIn with
        | (ret, none) => (ret, none)
        | (ret, some inQueue) =>
            (ret, some {
              outQueue := outQueue
              inQueue := inQueue
              messageHandlers := rbTreeNewEx none node
              messageHandlerList := listInit list .head
              state := .inactive
              handler := handler })

/-- A zeroed handler from `calloc`. Its `lnode` is initialized next. -/
def LoggerEndpoint.callocHandler (lep : LoggerEndpoint ρ η ε φ) (nhdlr : η) :
    LoggerEndpoint ρ η ε φ :=
  { lep with
    messageHandlers := lep.messageHandlers.setNode nhdlr ⟨none, none, none, VoidPtr.null, 0⟩
    handler := Function.update lep.handler nhdlr ⟨0#32, none, none⟩ }

/-- `logger_add_message_handler`; `calloc` is the address of the new handler, if one is allocated. -/
def loggerAddMessageHandler (fuel : ℕ) (ep : Option ε) (lep : LoggerEndpoint ρ η ε φ)
    (messageType : BitVec 32) (func : Option φ) (calloc : Option η) :
    Option (AResult × LoggerEndpoint ρ η ε φ) :=
  if ep = none then some (aEBadargs, lep)
  else if ¬ 0#32 < messageType then some (aEBadargs, lep)
  else if func = none then some (aEBadargs, lep)
  else if lep.state ≠ .inactive then some (aEBadargs, lep)
  else do
    let (found, _) ←
      rbTreeFind loggerCmpMessageHandlers fuel lep.messageHandlers (messageKey messageType) none
    if afailed found = false then some (aEBusy, lep)
    else
      match calloc with
      | none => some (aENomem, lep)
      | some nhdlr => do
          let lep := lep.callocHandler nhdlr
          let lep := { lep with
            handler := Function.update lep.handler nhdlr ⟨messageType, ep, func⟩
            messageHandlerList := listInit lep.messageHandlerList (.lnode nhdlr) }
          let (ret, tree) ← rbTreeInsert loggerCmpMessageHandlers fuel lep.messageHandlers
            (messageKey messageType) nhdlr
          let lep := { lep with messageHandlers := tree }
          if afailed ret then some (ret, lep)
          else
            some (ret, { lep with
              messageHandlerList := listAppend lep.messageHandlerList .head (.lnode nhdlr) })

/-- `logger_start`; `ret` is what `work_pool_add_endpoint` answers. -/
def loggerStart (lep : LoggerEndpoint ρ η ε φ) (ret : AResult) :
    AResult × LoggerEndpoint ρ η ε φ :=
  if lep.state ≠ .inactive then (aEBadargs, lep)
  else (ret, { lep with state := if afailed ret then .terminated else .starting })

/-- `logger_endpoint_startup`. -/
def loggerEndpointStartup (lep : LoggerEndpoint ρ η ε φ) : AResult × LoggerEndpoint ρ η ε φ :=
  (aOk, { lep with state := .running })

/-- `logger_endpoint_shutdown`. -/
def loggerEndpointShutdown (lep : LoggerEndpoint ρ η ε φ) : AResult × LoggerEndpoint ρ η ε φ :=
  (aOk, { lep with state := .terminated })

/-- `__logger_get_handler`: the handler, or `NULL`. -/
def loggerGetHandler (fuel : ℕ) (lep : LoggerEndpoint ρ η ε φ) (messageId : BitVec 32) :
    Option (Option η) := do
  let (ret, handler) ←
    rbTreeFind loggerCmpMessageHandlers fuel lep.messageHandlers (messageKey messageId) none
  some (if afailed ret then none else handler)

/-! ## A logger in use -/

/-- A handler that was registered, and for what. -/
structure Registration (η φ : Type) where
  messageType : BitVec 32
  hdlr : η
  func : φ

/-- A logger endpoint with the registrations that answered `A_OK`, the newest first. -/
structure LoggerRun (ρ η ε φ : Type) where
  lep : LoggerEndpoint ρ η ε φ
  registered : List (Registration η φ)

/-- What can be done with a logger. -/
inductive LoggerCall (η φ : Type)
  | addMessageHandler (messageType : BitVec 32) (func : Option φ) (calloc : Option η)
  | start (ret : AResult)
  | startup
  | shutdown

namespace LoggerRun

def new (lep : LoggerEndpoint ρ η ε φ) : LoggerRun ρ η ε φ := ⟨lep, []⟩

/-- The types that are registered. -/
def types (s : LoggerRun ρ η ε φ) : List (BitVec 32) := s.registered.map Registration.messageType

/-- The handlers that are in use. -/
def handlers (s : LoggerRun ρ η ε φ) : List η := s.registered.map Registration.hdlr

/-- A registration with what it answers. -/
def register (s : LoggerRun ρ η ε φ) (messageType : BitVec 32) (func : Option φ) (calloc : Option η) :
    AResult × LoggerEndpoint ρ η ε φ → LoggerRun ρ η ε φ
  | (ret, lep) =>
      match func, calloc with
      | some func, some nhdlr =>
          ⟨lep, if ret = aOk then ⟨messageType, nhdlr, func⟩ :: s.registered else s.registered⟩
      | _, _ => ⟨lep, s.registered⟩

/-- One step; there is none if `calloc` answers the address of a handler in use. -/
def step (ep : ε) (s : LoggerRun ρ η ε φ) : LoggerCall η φ → Option (LoggerRun ρ η ε φ)
  | .addMessageHandler messageType func calloc =>
      if calloc.all fun nhdlr => nhdlr ∉ s.handlers then
        (loggerAddMessageHandler (s.registered.length + 1) (some ep) s.lep messageType func
          calloc).map (s.register messageType func calloc)
      else none
  | .start ret => some { s with lep := (loggerStart s.lep ret).2 }
  | .startup => some { s with lep := (loggerEndpointStartup s.lep).2 }
  | .shutdown => some { s with lep := (loggerEndpointShutdown s.lep).2 }

end LoggerRun

/-! ## Dispatch -/

/-- A registered type finds its handler and another type finds none, and registering a type again
    answers `A_E_BUSY` and changes nothing. -/
structure Dispatches (ep : ε) (s : LoggerRun ρ η ε φ) : Prop where
  found : ∀ r ∈ s.registered, ∀ fuel, s.registered.length ≤ fuel →
    loggerGetHandler fuel s.lep r.messageType = some (some r.hdlr) ∧
      s.lep.handler r.hdlr = ⟨r.messageType, some ep, some r.func⟩
  missing : ∀ messageType, messageType ∉ s.types → ∀ fuel, s.registered.length ≤ fuel →
    loggerGetHandler fuel s.lep messageType = some none
  busy : s.lep.state = .inactive → ∀ messageType ∈ s.types, ∀ func calloc fuel,
    s.registered.length ≤ fuel →
    loggerAddMessageHandler fuel (some ep) s.lep messageType (some func) calloc =
      some (aEBusy, s.lep)

/-- The types lie within 2^31 consecutive ones, where 0 comes after the last. -/
def HalfWindow (types : List (BitVec 32)) : Prop :=
  ∃ base, ∀ t ∈ types, (t - base).toNat < 2 ^ 31

/-- A type in half a window with the registered ones can be registered, while the logger is inactive
    and there is memory. -/
def Registers (ep : ε) (s : LoggerRun ρ η ε φ) : Prop :=
  ∀ messageType func nhdlr, 0#32 < messageType → s.lep.state = .inactive → nhdlr ∉ s.handlers →
    HalfWindow (messageType :: s.types) →
    ∃ s', s.step ep (.addMessageHandler messageType (some func) (some nhdlr)) = some s' ∧
      messageType ∈ s'.types

/-- The type that is registered lies in half a window with those that are. -/
def WindowKept (s : LoggerRun ρ η ε φ) : LoggerCall η φ → Prop
  | .addMessageHandler messageType func calloc =>
      0#32 < messageType → func ≠ none → s.lep.state = .inactive → calloc ≠ none →
        HalfWindow (messageType :: s.types)
  | _ => True

/-! ## The comparison -/

section Compare

variable {a b base : BitVec 32} {types : List (BitVec 32)}

theorem setWidth_messageKey (t : BitVec 32) : (messageKey t).setWidth 32 = t := by
  simp [messageKey]

theorem cmp_messageKey (a b : BitVec 32) :
    loggerCmpMessageHandlers (messageKey a) (messageKey b) = (a - b).toInt := by
  simp only [loggerCmpMessageHandlers, setWidth_messageKey]

theorem messageKey_injective (h : messageKey a = messageKey b) : a = b := by
  have hwidth := congrArg (BitVec.setWidth 32) h
  rwa [setWidth_messageKey, setWidth_messageKey] at hwidth

theorem messageKey_ne_null (h : 0#32 < a) : messageKey a ≠ VoidPtr.null := by
  intro hnull
  have hzero : a = 0#32 := messageKey_injective hnull
  subst hzero
  exact absurd h (by decide)

/-- The comparison answers zero only for one type. -/
theorem eq_of_cmp (h : loggerCmpMessageHandlers (messageKey a) (messageKey b) = 0) : a = b := by
  rw [cmp_messageKey] at h
  have hzero : a - b = 0#32 := BitVec.eq_of_toInt_eq (by rw [h]; rfl)
  bv_omega

/-- Types by their distance from `base`. -/
def compareFrom (base : BitVec 32) (lhs rhs : BitVec 64) : ℤ :=
  ((lhs.setWidth 32 - base).toNat : ℤ) - (rhs.setWidth 32 - base).toNat

theorem isTotalPreorder_compareFrom (base : BitVec 32) : IsTotalPreorder (compareFrom base) where
  swap := by
    intro a b
    unfold compareFrom
    omega
  trans := by
    intro a b c
    unfold compareFrom
    omega

/-- A difference of less than 2^31 does not wrap around. -/
theorem toInt_sub_of_window (ha : (a - base).toNat < 2 ^ 31) (hb : (b - base).toNat < 2 ^ 31) :
    (a - b).toInt = ((a - base).toNat : ℤ) - (b - base).toNat := by
  have hsub : a - b = (a - base) - (b - base) := by bv_omega
  rw [hsub]
  generalize a - base = u at *
  generalize b - base = v at *
  rw [BitVec.toInt_eq_toNat_cond, BitVec.toNat_sub]
  omega

/-- In the window from `base` the code compares the distances. -/
theorem cmp_eq_compareFrom (ha : (a - base).toNat < 2 ^ 31) (hb : (b - base).toNat < 2 ^ 31) :
    loggerCmpMessageHandlers (messageKey a) (messageKey b) =
      compareFrom base (messageKey a) (messageKey b) := by
  rw [cmp_messageKey, toInt_sub_of_window ha hb]
  simp only [compareFrom, setWidth_messageKey]

/-- The comparison is a strict order on the types. -/
structure Orders (types : List (BitVec 32)) : Prop where
  swap : ∀ a ∈ types, ∀ b ∈ types, loggerCmpMessageHandlers (messageKey a) (messageKey b) < 0 ↔
    0 < loggerCmpMessageHandlers (messageKey b) (messageKey a)
  trans : ∀ a ∈ types, ∀ b ∈ types, ∀ c ∈ types,
    loggerCmpMessageHandlers (messageKey a) (messageKey b) < 0 →
    loggerCmpMessageHandlers (messageKey b) (messageKey c) < 0 →
    loggerCmpMessageHandlers (messageKey a) (messageKey c) < 0

theorem Orders.exists_least (h : Orders types) {some_types : List (BitVec 32)}
    (hsub : some_types ⊆ types) (hne : some_types ≠ []) :
    ∃ m ∈ some_types, ∀ t ∈ some_types, t ≠ m →
      loggerCmpMessageHandlers (messageKey m) (messageKey t) < 0 := by
  induction some_types with
  | nil => exact absurd rfl hne
  | cons a rest ih =>
      obtain ⟨ha, hrest⟩ := List.cons_subset.1 hsub
      cases rest with
      | nil => exact ⟨a, List.mem_cons_self, fun t ht hta => absurd (List.mem_singleton.1 ht) hta⟩
      | cons b rest =>
          obtain ⟨m, hm, hleast⟩ := ih hrest (List.cons_ne_nil _ _)
          by_cases hma : a ≠ m → loggerCmpMessageHandlers (messageKey m) (messageKey a) < 0
          · refine ⟨m, List.mem_cons_of_mem _ hm, fun t ht hne' => ?_⟩
            rcases List.mem_cons.1 ht with rfl | ht
            · exact hma hne'
            · exact hleast t ht hne'
          · -- `a` is below `m`
            obtain ⟨hne', hle⟩ := Classical.not_imp.1 hma
            have hpos : 0 < loggerCmpMessageHandlers (messageKey m) (messageKey a) := by
              have hzero : loggerCmpMessageHandlers (messageKey m) (messageKey a) ≠ 0 :=
                fun hzero => hne' (eq_of_cmp hzero).symm
              omega
            have ham := (h.swap a ha m (hrest hm)).2 hpos
            refine ⟨a, List.mem_cons_self, fun t ht hta => ?_⟩
            rcases List.mem_cons.1 ht with rfl | ht
            · exact absurd rfl hta
            · by_cases htm : t = m
              · exact htm ▸ ham
              · exact h.trans a ha m (hrest hm) t (hrest ht) ham (hleast t ht htm)

/-- **The comparison orders the types** exactly when they lie in half a window. -/
theorem orders_iff_halfWindow : Orders types ↔ HalfWindow types := by
  constructor
  · intro h
    by_cases hne : types = []
    · subst hne
      exact ⟨0#32, fun t ht => by cases ht⟩
    · -- the window starts at the least type
      obtain ⟨m, hm, hleast⟩ := h.exists_least (List.Subset.refl _) hne
      refine ⟨m, fun t ht => ?_⟩
      by_cases heq : t = m
      · subst heq
        simp
      · have hpos := (h.swap m hm t ht).1 (hleast t ht heq)
        rw [cmp_messageKey, BitVec.toInt_eq_toNat_cond] at hpos
        split at hpos <;> omega
  · rintro ⟨base, hwin⟩
    have htotal := isTotalPreorder_compareFrom base
    have hcmp := fun {a b} ha hb => cmp_eq_compareFrom (hwin a ha) (hwin b hb)
    refine ⟨fun a ha b hb => ?_, fun a ha b hb c hc hab hbc => ?_⟩
    · rw [hcmp ha hb, hcmp hb ha]
      exact htotal.swap _ _
    · rw [hcmp ha hb] at hab
      rw [hcmp hb hc] at hbc
      rw [hcmp ha hc]
      exact htotal.lt_of_lt_of_le hab hbc.le

end Compare

/-! ## What holds between the calls -/

/-- The tree in memory holds the registered handlers, each under its type. -/
structure LoggerOk (ep : ε) (s : LoggerRun ρ η ε φ) (T : RBTree η) : Prop where
  tree : Ok loggerCmpMessageHandlers s.lep.messageHandlers T
  perm : T.items.Perm s.handlers
  window : HalfWindow s.types
  distinct : s.types.Nodup
  positive : ∀ r ∈ s.registered, 0#32 < r.messageType
  key : ∀ r ∈ s.registered, (s.lep.messageHandlers.node r.hdlr).key = messageKey r.messageType
  handler : ∀ r ∈ s.registered, s.lep.handler r.hdlr = ⟨r.messageType, some ep, some r.func⟩

section Keeps

variable {ep : ε} {s s' : LoggerRun ρ η ε φ} {T : RBTree η} {messageType : BitVec 32} {fuel : ℕ}
  {r r' : Registration η φ}

omit [DecidableEq η] in
theorem LoggerOk.eq_of_type (h : LoggerOk ep s T) (hr : r ∈ s.registered) (hr' : r' ∈ s.registered)
    (heq : r.messageType = r'.messageType) : r = r' :=
  List.inj_on_of_nodup_map h.distinct hr hr' heq

omit [DecidableEq η] in
theorem LoggerOk.mem_items (h : LoggerOk ep s T) {z : η} :
    z ∈ T.items ↔ ∃ r ∈ s.registered, r.hdlr = z := by
  rw [h.perm.mem_iff, LoggerRun.handlers, List.mem_map]

omit [DecidableEq η] in
theorem LoggerOk.length_items (h : LoggerOk ep s T) : T.items.length = s.registered.length := by
  rw [h.perm.length_eq, LoggerRun.handlers, List.length_map]

omit [DecidableEq η] in
/-- On a tree whose keys are types in the window from `base`, the code compares the distances. -/
theorem cmp_eq_compareFrom_of_keys {t : RbTree η (BitVec 64)} {xs : List η} {base : BitVec 32}
    (hkeys : ∀ z ∈ xs, ∃ m, (t.node z).key = messageKey m ∧ (m - base).toNat < 2 ^ 31)
    (hm : (messageType - base).toNat < 2 ^ 31) {z : η} (hz : z ∈ xs) :
    loggerCmpMessageHandlers (messageKey messageType) (t.node z).key =
      compareFrom base (messageKey messageType) (t.node z).key := by
  obtain ⟨m, hkey, hwin⟩ := hkeys z hz
  rw [hkey]
  exact cmp_eq_compareFrom hm hwin

omit [DecidableEq η] in
theorem ok_compareFrom_iff {t : RbTree η (BitVec 64)} {base : BitVec 32}
    (hkeys : ∀ z ∈ T.items, ∃ m, (t.node z).key = messageKey m ∧ (m - base).toNat < 2 ^ 31) :
    Ok loggerCmpMessageHandlers t T ↔ Ok (compareFrom base) t T := by
  have hcmp : ∀ a ∈ T.items, ∀ b ∈ T.items,
      loggerCmpMessageHandlers (t.node a).key (t.node b).key =
        compareFrom base (t.node a).key (t.node b).key := by
    intro a ha b hb
    obtain ⟨m, hkey, hwin⟩ := hkeys a ha
    rw [hkey]
    exact cmp_eq_compareFrom_of_keys hkeys hwin hb
  exact ⟨fun h => h.congr_compare hcmp, fun h => h.congr_compare fun a ha b hb => (hcmp a ha b hb).symm⟩

omit [DecidableEq η] in
theorem LoggerOk.keys (h : LoggerOk ep s T) {base : BitVec 32}
    (hwin : ∀ t ∈ s.types, (t - base).toNat < 2 ^ 31) :
    ∀ z ∈ T.items, ∃ m, (s.lep.messageHandlers.node z).key = messageKey m ∧
      (m - base).toNat < 2 ^ 31 := by
  intro z hz
  obtain ⟨r, hr, rfl⟩ := h.mem_items.1 hz
  exact ⟨r.messageType, h.key r hr, hwin _ (List.mem_map_of_mem hr)⟩

omit [DecidableEq η] in
/-- **A lookup** finds the handler of a registered type, and nothing for another type. -/
theorem LoggerOk.find (h : LoggerOk ep s T) (hpos : 0#32 < messageType)
    (hfuel : s.registered.length ≤ fuel) :
    (∃ r ∈ s.registered, r.messageType = messageType ∧
        rbTreeFind loggerCmpMessageHandlers fuel s.lep.messageHandlers (messageKey messageType) none =
          some (aOk, some r.hdlr)) ∨
      messageType ∉ s.types ∧
        rbTreeFind loggerCmpMessageHandlers fuel s.lep.messageHandlers (messageKey messageType) none =
          some (aENotfound, none) := by
  have hloop := rbTreeFindLoop_eq loggerCmpMessageHandlers (messageKey messageType) [] fuel
    h.tree.focused.below (T.height_le_length.trans (h.length_items ▸ hfuel))
  rw [← h.tree.focused.root_eq] at hloop
  have hnull := messageKey_ne_null hpos
  cases hfound : (descend (keyCmp loggerCmpMessageHandlers s.lep.messageHandlers
      (messageKey messageType)) [] T).2.top with
  | none =>
      refine .inr ⟨fun hmem => ?_, ?_⟩
      · -- the search has not missed it, as it goes by the distances
        obtain ⟨r, hr, rfl⟩ := List.mem_map.1 hmem
        obtain ⟨base, hwin⟩ := h.window
        have hkeys := h.keys hwin
        have hcongr : descend (keyCmp loggerCmpMessageHandlers s.lep.messageHandlers
              (messageKey r.messageType)) [] T =
            descend (keyCmp (compareFrom base) s.lep.messageHandlers (messageKey r.messageType)) [] T :=
          descend_congr (fun z hz => cmp_eq_compareFrom_of_keys hkeys (hwin _ hmem) hz) []
        rw [hcongr] at hfound
        have hcut := ((ok_compareFrom_iff hkeys).1 h.tree).ordered.cut
          (isTotalPreorder_compareFrom base) (messageKey r.messageType)
        have hne := cmp_ne_of_descend hcut hfound (h.mem_items.2 ⟨r, hr, rfl⟩)
        rw [keyCmp, h.key r hr] at hne
        exact hne (by simp [compareFrom])
      · rw [rbTreeFind, if_neg hnull, hloop, hfound]
        rfl
  | some z =>
      obtain ⟨r, hr, rfl⟩ := h.mem_items.1 (mem_of_descend hfound)
      have hcmp := cmp_descend hfound
      rw [keyCmp, h.key r hr] at hcmp
      refine .inl ⟨r, hr, (eq_of_cmp hcmp).symm, ?_⟩
      rw [rbTreeFind, if_neg hnull, hloop, hfound]
      rfl

theorem LoggerOk.callocHandler (h : LoggerOk ep s T) {nhdlr : η} (hfree : nhdlr ∉ s.handlers) :
    Ok loggerCmpMessageHandlers (s.lep.callocHandler nhdlr).messageHandlers T ∧
      Fresh (s.lep.callocHandler nhdlr).messageHandlers T nhdlr ∧
      ∀ z, z ≠ nhdlr →
        (s.lep.callocHandler nhdlr).messageHandlers.node z = s.lep.messageHandlers.node z := by
  have hout : nhdlr ∉ T.items := fun hmem => hfree (h.perm.mem_iff.1 hmem)
  have hnode : ∀ z, z ≠ nhdlr →
      (s.lep.callocHandler nhdlr).messageHandlers.node z = s.lep.messageHandlers.node z :=
    fun z hz => Function.update_of_ne hz _ _
  have hself : (s.lep.callocHandler nhdlr).messageHandlers.node nhdlr =
      ⟨none, none, none, VoidPtr.null, 0⟩ := Function.update_self _ _ _
  exact ⟨h.tree.congr (same_of_unlinked hout hnode) rfl rfl,
    ⟨hout, by rw [hself], by rw [hself], by rw [hself]⟩, hnode⟩

/-- A handler that was linked into the tree is registered. -/
theorem LoggerOk.added (h : LoggerOk ep s T) {nhdlr : η} {base : BitVec 32}
    {tree₁ tree : RbTree η (BitVec 64)} {T' : RBTree η} (func : φ) (hpos : 0#32 < messageType)
    (hnew : messageType ∉ s.types) (hfree : nhdlr ∉ s.handlers)
    (hwin : ∀ t ∈ messageType :: s.types, (t - base).toNat < 2 ^ 31)
    (hnode : ∀ z, z ≠ nhdlr → tree₁.node z = s.lep.messageHandlers.node z)
    (hadded : Added (compareFrom base) tree₁ tree T T' nhdlr (messageKey messageType))
    (list : ListMem (LoggerListNode η)) (st : LoggerState) :
    LoggerOk ep ⟨{ s.lep with
        messageHandlers := tree
        messageHandlerList := list
        state := st
        handler := Function.update s.lep.handler nhdlr ⟨messageType, some ep, some func⟩ },
      ⟨messageType, nhdlr, func⟩ :: s.registered⟩ T' := by
  obtain ⟨hm, htypes⟩ := List.forall_mem_cons.1 hwin
  have hother : ∀ r ∈ s.registered, r.hdlr ≠ nhdlr :=
    fun r hr heq => hfree (heq ▸ List.mem_map_of_mem hr)
  have hkey : ∀ r ∈ s.registered, (tree.node r.hdlr).key = messageKey r.messageType := by
    intro r hr
    rw [hadded.key, if_neg (hother r hr), hnode _ (hother r hr)]
    exact h.key r hr
  have hkey' : (tree.node nhdlr).key = messageKey messageType := by rw [hadded.key, if_pos rfl]
  have hkeys : ∀ z ∈ T'.items, ∃ m, (tree.node z).key = messageKey m ∧
      (m - base).toNat < 2 ^ 31 := by
    intro z hz
    rcases hadded.mem_iff.1 hz with rfl | hz
    · exact ⟨messageType, hkey', hm⟩
    · obtain ⟨r, hr, rfl⟩ := h.mem_items.1 hz
      exact ⟨r.messageType, hkey r hr, htypes _ (List.mem_map_of_mem hr)⟩
  exact {
    tree := (ok_compareFrom_iff hkeys).2 hadded.ok
    perm := by
      obtain ⟨xs, ys, hT, hT'⟩ := hadded.items
      rw [hT']
      exact List.perm_middle.trans ((hT ▸ h.perm).cons nhdlr)
    window := ⟨base, hwin⟩
    distinct := List.nodup_cons.2 ⟨hnew, h.distinct⟩
    positive := List.forall_mem_cons.2 ⟨hpos, h.positive⟩
    key := List.forall_mem_cons.2 ⟨hkey', hkey⟩
    handler := by
      refine List.forall_mem_cons.2 ⟨Function.update_self _ _ _, fun r hr => ?_⟩
      exact (Function.update_of_ne (hother r hr) _ _).trans (h.handler r hr) }

/-- **A new type** is put into the tree. -/
theorem LoggerOk.insert (h : LoggerOk ep s T) {nhdlr : η} (func : φ) (hpos : 0#32 < messageType)
    (hnew : messageType ∉ s.types) (hfree : nhdlr ∉ s.handlers)
    (hwin : HalfWindow (messageType :: s.types)) :
    ∃ tree T', rbTreeInsert loggerCmpMessageHandlers (s.registered.length + 1)
          (s.lep.callocHandler nhdlr).messageHandlers (messageKey messageType) nhdlr =
        some (aOk, tree) ∧
      ∀ list st, LoggerOk ep ⟨{ s.lep with
          messageHandlers := tree
          messageHandlerList := list
          state := st
          handler := Function.update s.lep.handler nhdlr ⟨messageType, some ep, some func⟩ },
        ⟨messageType, nhdlr, func⟩ :: s.registered⟩ T' := by
  obtain ⟨base, hwin⟩ := hwin
  obtain ⟨hm, htypes⟩ := List.forall_mem_cons.1 hwin
  obtain ⟨hok, hfresh, hnode⟩ := h.callocHandler hfree
  have hsame := same_of_unlinked hfresh.unlinked hnode
  have hkeys : ∀ z ∈ T.items,
      ∃ m, ((s.lep.callocHandler nhdlr).messageHandlers.node z).key = messageKey m ∧
        (m - base).toNat < 2 ^ 31 := by
    intro z hz
    rw [hsame z hz]
    exact h.keys htypes z hz
  have hcmp := fun z (hz : z ∈ T.items) => cmp_eq_compareFrom_of_keys hkeys hm hz
  have hfuel : T.height < s.registered.length + 1 := by
    rw [← h.length_items]
    exact Nat.lt_succ_of_le T.height_le_length
  have hcongr := rbTreeInsert_congr hok.focused hfresh.unlinked hfuel.le hcmp
  rcases rbTreeInsert_spec (isTotalPreorder_compareFrom base) ((ok_compareFrom_iff hkeys).1 hok)
    hfresh.unlinked (messageKey messageType) (fun _ => hfresh.linkable) hfuel with
    ⟨z, hz, hzero, -⟩ | ⟨-, tree, T', hrun, hadded⟩
  · -- an equal key would be the same type
    obtain ⟨r, hr, rfl⟩ := h.mem_items.1 hz
    rw [← hcmp _ hz, hsame _ hz, h.key r hr] at hzero
    exact absurd (List.mem_map.2 ⟨r, hr, (eq_of_cmp hzero).symm⟩) hnew
  · exact ⟨tree, T', hcongr.trans hrun, h.added func hpos hnew hfree hwin hnode hadded⟩

omit [DecidableEq η] in
/-- `NULL` is no key. -/
theorem rbTreeFind_zero (tree : RbTree η (BitVec 64)) (value : Option η) :
    rbTreeFind loggerCmpMessageHandlers fuel tree (messageKey 0#32) value =
      some (aEBadargs, value) :=
  if_pos rfl

/-- **The handlers are dispatched to.** -/
theorem LoggerOk.dispatches (h : LoggerOk ep s T) : Dispatches ep s where
  found := by
    intro r hr fuel hfuel
    refine ⟨?_, h.handler r hr⟩
    rcases h.find (h.positive r hr) hfuel with ⟨r', hr', heq, hrun⟩ | ⟨hnew, -⟩
    · rw [h.eq_of_type hr' hr heq] at hrun
      rw [loggerGetHandler, hrun]
      rfl
    · exact absurd (List.mem_map_of_mem hr) hnew
  missing := by
    intro t hnew fuel hfuel
    by_cases hpos : 0#32 < t
    · rcases h.find hpos hfuel with ⟨r, hr, rfl, -⟩ | ⟨-, hrun⟩
      · exact absurd (List.mem_map_of_mem hr) hnew
      · rw [loggerGetHandler, hrun]
        rfl
    · obtain rfl : t = 0#32 := by bv_omega
      rw [loggerGetHandler, rbTreeFind_zero]
      rfl
  busy := by
    intro hinactive t ht func calloc fuel hfuel
    obtain ⟨r, hr, rfl⟩ := List.mem_map.1 ht
    have hpos := h.positive r hr
    rcases h.find hpos hfuel with ⟨r', -, -, hrun⟩ | ⟨hnew, -⟩
    · simp [loggerAddMessageHandler, hpos, hinactive, hrun]
    · exact absurd ht hnew

/-- Where the type is not found and the handler is put into the tree, the registration succeeds. -/
theorem loggerAddMessageHandler_ok {lep : LoggerEndpoint ρ η ε φ} {func : φ} {nhdlr : η}
    {tree : RbTree η (BitVec 64)} (hpos : 0#32 < messageType) (hinactive : lep.state = .inactive)
    (hfind : rbTreeFind loggerCmpMessageHandlers fuel lep.messageHandlers (messageKey messageType)
      none = some (aENotfound, none))
    (hinsert : rbTreeInsert loggerCmpMessageHandlers fuel (lep.callocHandler nhdlr).messageHandlers
      (messageKey messageType) nhdlr = some (aOk, tree)) :
    loggerAddMessageHandler fuel (some ep) lep messageType (some func) (some nhdlr) =
      some (aOk, { lep with
        messageHandlers := tree
        messageHandlerList := listAppend (listInit lep.messageHandlerList (.lnode nhdlr)) .head
          (.lnode nhdlr)
        handler := Function.update lep.handler nhdlr ⟨messageType, some ep, some func⟩ }) := by
  have hfailed : afailed aENotfound = true := rfl
  have hhandler : Function.update (lep.callocHandler nhdlr).handler nhdlr
      ⟨messageType, some ep, some func⟩ =
        Function.update lep.handler nhdlr ⟨messageType, some ep, some func⟩ :=
    Function.update_idem _ _ _
  rw [loggerAddMessageHandler, if_neg (Option.some_ne_none _), if_neg (not_not.2 hpos),
    if_neg (Option.some_ne_none _), if_neg (not_not.2 hinactive), hfind]
  simp only [Option.bind_eq_bind, Option.bind_some, hfailed, Bool.true_eq_false, if_false, hinsert,
    afailed_aOk, Bool.false_eq_true, hhandler]
  rfl

omit [DecidableEq η] in
theorem register_unchanged {func : Option φ} {calloc : Option η} {ret : AResult} (hret : ret ≠ aOk) :
    s.register messageType func calloc (ret, s.lep) = s := by
  cases func <;> cases calloc <;> simp [LoggerRun.register, hret]

/-- What a registration should do: return and keep the tree, and with all it needs register the type. -/
def AddOk (ep : ε) (s : LoggerRun ρ η ε φ) (messageType : BitVec 32) (func : Option φ)
    (calloc : Option η) : Prop :=
  ∃ answer T', loggerAddMessageHandler (s.registered.length + 1) (some ep) s.lep messageType func
      calloc = some answer ∧
    LoggerOk ep (s.register messageType func calloc answer) T' ∧
    (0#32 < messageType → func ≠ none → s.lep.state = .inactive → calloc ≠ none →
      messageType ∈ (s.register messageType func calloc answer).types)

theorem LoggerOk.refuses (h : LoggerOk ep s T) {func : Option φ} {calloc : Option η} (ret : AResult)
    (hret : ret ≠ aOk) (hrun : loggerAddMessageHandler (s.registered.length + 1) (some ep) s.lep
      messageType func calloc = some (ret, s.lep))
    (hmem : 0#32 < messageType → func ≠ none → s.lep.state = .inactive → calloc ≠ none →
      messageType ∈ s.types) : AddOk ep s messageType func calloc := by
  refine ⟨_, T, hrun, ?_⟩
  rw [register_unchanged hret]
  exact ⟨h, hmem⟩

/-- **A registration** does. -/
theorem LoggerOk.add (h : LoggerOk ep s T) (func : Option φ) (calloc : Option η)
    (hfree : ∀ nhdlr, calloc = some nhdlr → nhdlr ∉ s.handlers)
    (hwin : WindowKept s (.addMessageHandler messageType func calloc)) :
    AddOk ep s messageType func calloc := by
  by_cases hpos : 0#32 < messageType
  swap
  · exact h.refuses aEBadargs (by decide) (by simp [loggerAddMessageHandler, hpos])
      fun hpos' => absurd hpos' hpos
  cases func with
  | none =>
      exact h.refuses aEBadargs (by decide) (by simp [loggerAddMessageHandler, hpos])
        fun _ hfunc => absurd rfl hfunc
  | some func =>
      by_cases hinactive : s.lep.state = .inactive
      swap
      · exact h.refuses aEBadargs (by decide)
          (by simp [loggerAddMessageHandler, hpos, hinactive])
          fun _ _ hinactive' => absurd hinactive' hinactive
      rcases h.find hpos (Nat.le_succ s.registered.length) with ⟨r, hr, rfl, hfind⟩ | ⟨hnew, hfind⟩
      · exact h.refuses aEBusy (by decide)
          (by simp [loggerAddMessageHandler, hpos, hinactive, hfind])
          fun _ _ _ _ => List.mem_map_of_mem hr
      · have hfailed : afailed aENotfound = true := rfl
        cases calloc with
        | none =>
            refine h.refuses aENomem (by decide) ?_ fun _ _ _ hcalloc => absurd rfl hcalloc
            simp [loggerAddMessageHandler, hpos, hinactive, hfind, hfailed]
        | some nhdlr =>
            obtain ⟨tree, T', hrun, hok⟩ := h.insert func hpos hnew (hfree nhdlr rfl)
              (hwin hpos (Option.some_ne_none _) hinactive (Option.some_ne_none _))
            refine ⟨_, T', loggerAddMessageHandler_ok hpos hinactive hfind hrun, hok _ _, ?_⟩
            exact fun _ _ _ _ => List.mem_cons_self

omit [DecidableEq η] in
theorem LoggerOk.setState (h : LoggerOk ep s T) (st : LoggerState) :
    LoggerOk ep { s with lep := { s.lep with state := st } } T :=
  ⟨h.tree, h.perm, h.window, h.distinct, h.positive, h.key, h.handler⟩

/-- **One step** keeps the tree. -/
theorem loggerOk_step {call : LoggerCall η φ} (h : LoggerOk ep s T) (hwin : WindowKept s call)
    (hstep : s.step ep call = some s') : ∃ T', LoggerOk ep s' T' := by
  cases call with
  | addMessageHandler messageType func calloc =>
      simp only [LoggerRun.step] at hstep
      split at hstep
      · next hfree =>
          simp only [Option.all_eq_true, decide_eq_true_eq] at hfree
          obtain ⟨answer, T', hrun, hok, -⟩ := h.add func calloc hfree hwin
          rw [hrun, Option.map_some, Option.some.injEq] at hstep
          exact ⟨T', hstep ▸ hok⟩
      · cases hstep
  | start ret =>
      simp only [LoggerRun.step, loggerStart, Option.some.injEq] at hstep
      subst hstep
      split
      · exact ⟨T, h⟩
      · exact ⟨T, h.setState _⟩
  | startup =>
      cases hstep
      exact ⟨T, h.setState _⟩
  | shutdown =>
      cases hstep
      exact ⟨T, h.setState _⟩

theorem LoggerOk.registers (h : LoggerOk ep s T) : Registers ep s := by
  intro messageType func nhdlr hpos hinactive hfree hwin
  obtain ⟨answer, T', hrun, -, hmem⟩ := h.add (some func) (some nhdlr)
    (fun x hx => Option.some.inj hx ▸ hfree) fun _ _ _ _ => hwin
  refine ⟨_, ?_, hmem hpos (Option.some_ne_none _) hinactive (Option.some_ne_none _)⟩
  simp only [LoggerRun.step, Option.all_some, hfree, not_false_eq_true, decide_true, if_true, hrun,
    Option.map_some]

end Keeps

/-! ## Runs -/

section Runs

variable {ck : CkRing ρ μ} {queueDepth : BitVec 32} {calloc bufferOut bufferIn : Bool}
  {node : η → RbTreeNode η (BitVec 64)} {list : ListMem (LoggerListNode η)}
  {handler : η → LoggerMessageHandler ε φ} {lep : LoggerEndpoint ρ η ε φ}

theorem loggerInitialize_ok (hnew : loggerInitialize ck queueDepth calloc bufferOut bufferIn node list
      handler = (aOk, some lep)) :
    (∃ ret, workQueueNew ck queueDepth.toNat bufferOut = (ret, some lep.outQueue)) ∧
      workQueueNew ck queueDepth.toNat bufferIn = (aOk, some lep.inQueue) ∧
      lep.messageHandlers = rbTreeNewEx none node := by
  unfold loggerInitialize at hnew
  split at hnew
  · cases hnew
  · split at hnew
    · cases hnew
    · next ret outQueue hout =>
        split at hnew
        · cases hnew
        · next inQueue hin =>
            cases hnew
            exact ⟨⟨ret, hout⟩, hin, rfl⟩

theorem loggerOk_new (ep : ε) (hnew : loggerInitialize ck queueDepth calloc bufferOut bufferIn node
      list handler = (aOk, some lep)) : LoggerOk ep (.new lep) .nil where
  tree := by
    rw [LoggerRun.new, (loggerInitialize_ok hnew).2.2]
    exact ⟨⟨rfl, trivial, List.nodup_nil⟩, ⟨0, .nil⟩, List.Pairwise.nil, fun h => absurd rfl h⟩
  perm := List.Perm.refl _
  window := ⟨0#32, fun _ ht => by cases ht⟩
  distinct := List.nodup_nil
  positive := fun _ hr => by cases hr
  key := fun _ hr => by cases hr
  handler := fun _ hr => by cases hr

/-- **In a run that registers types in half a window** every registered type finds its handler. -/
theorem dispatches_of_windowKept (ep : ε) (hnew : loggerInitialize ck queueDepth calloc bufferOut
      bufferIn node list handler = (aOk, some lep)) (calls : List (LoggerCall η φ))
    (hkept : Meets (LoggerRun.step ep) WindowKept (.new lep) calls) :
    Throughout (LoggerRun.step ep) (fun s => Dispatches ep s ∧ Registers ep s) (.new lep) calls := by
  refine throughout_of_meets (I := fun s => ∃ T, LoggerOk ep s T) ?_ ?_ calls _
    ⟨.nil, loggerOk_new ep hnew⟩ hkept
  · rintro s call s' ⟨T, h⟩ hwin hstep
    exact loggerOk_step h hwin hstep
  · rintro s ⟨T, h⟩
    exact ⟨h.dispatches, h.registers⟩

omit [DecidableEq η] in
theorem types_register (s : LoggerRun ρ η ε φ) (messageType : BitVec 32) (func : Option φ)
    (calloc : Option η) (answer : AResult × LoggerEndpoint ρ η ε φ) :
    (s.register messageType func calloc answer).types = s.types ∨
      (s.register messageType func calloc answer).types = messageType :: s.types := by
  obtain ⟨ret, lep⟩ := answer
  cases func <;> cases calloc <;> try exact .inl rfl
  by_cases hret : ret = aOk
  · exact .inr (by simp [LoggerRun.register, LoggerRun.types, hret])
  · exact .inl (by simp [LoggerRun.register, LoggerRun.types, hret])

theorem mem_types_of_step {ep : ε} {s s' : LoggerRun ρ η ε φ} {call : LoggerCall η φ}
    (hstep : s.step ep call = some s') {t : BitVec 32} (ht : t ∈ s'.types) :
    t ∈ s.types ∨ ∃ func calloc, call = .addMessageHandler t func calloc := by
  cases call with
  | addMessageHandler messageType func calloc =>
      simp only [LoggerRun.step] at hstep
      split at hstep
      · obtain ⟨answer, -, rfl⟩ := Option.map_eq_some_iff.1 hstep
        rcases types_register s messageType func calloc answer with heq | heq
        · exact .inl (heq ▸ ht)
        · rw [heq, List.mem_cons] at ht
          rcases ht with rfl | ht
          · exact .inr ⟨func, calloc, rfl⟩
          · exact .inl ht
      · cases hstep
  | start ret =>
      cases hstep
      exact .inl ht
  | startup =>
      cases hstep
      exact .inl ht
  | shutdown =>
      cases hstep
      exact .inl ht

theorem meets_windowKept (ep : ε) (base : BitVec 32) (calls : List (LoggerCall η φ))
    (hcalls : ∀ t func calloc, .addMessageHandler t func calloc ∈ calls → (t - base).toNat < 2 ^ 31)
    {s : LoggerRun ρ η ε φ} (hs : ∀ t ∈ s.types, (t - base).toNat < 2 ^ 31) :
    Meets (LoggerRun.step ep) WindowKept s calls := by
  induction calls generalizing s with
  | nil => trivial
  | cons call calls ih =>
      refine ⟨?_, ?_⟩
      · cases call with
        | addMessageHandler t func calloc =>
            exact fun _ _ _ _ => ⟨base, List.forall_mem_cons.2 ⟨hcalls t func calloc List.mem_cons_self, hs⟩⟩
        | start _ => trivial
        | startup => trivial
        | shutdown => trivial
      · split
        · next s' hstep =>
            refine ih (fun t func calloc hmem => hcalls t func calloc (List.mem_cons_of_mem _ hmem)) ?_
            intro t ht
            rcases mem_types_of_step hstep ht with hold | ⟨func, calloc, rfl⟩
            · exact hs t hold
            · exact hcalls t func calloc List.mem_cons_self
        · trivial

end Runs

/-! ## Types that are no order -/

/-- A new logger with numbers as addresses. -/
def newLogger : LoggerEndpoint (List (Option ℕ) × ℕ) ℕ ℕ ℕ where
  outQueue := ⟨([], 7), 8, true⟩
  inQueue := ⟨([], 7), 8, true⟩
  messageHandlers := rbTreeNewEx none fun _ => ⟨none, none, none, 0#64, colorBlack⟩
  messageHandlerList := listInit (fun _ => ⟨.head, .head⟩) .head
  state := .inactive
  handler := fun _ => ⟨0#32, none, none⟩

/-- `logger_add_message_handler` for every type, with the handlers and functions numbered. -/
def registerAll (types : List (BitVec 32)) : List (LoggerCall ℕ ℕ) :=
  types.map fun t => .addMessageHandler t (some t.toNat) (some t.toNat)

/-- Eight types from all around the 2^32 values. -/
def eightTypes : List (BitVec 32) :=
  [0x90000000#32, 0x10000000#32, 0xf0000000#32, 0x60000000#32, 0x20000000#32, 0x30000000#32,
    0x50000000#32, 0x70000000#32]

theorem newLogger_eq : loggerInitialize listRing 8#32 true true true
    (fun _ => ⟨none, none, none, 0#64, colorBlack⟩) (fun _ => ⟨.head, .head⟩)
    (fun _ => ⟨0#32, none, none⟩) = (aOk, some newLogger) := rfl

/-- After they are registered `0xf0000000` finds no handler. -/
theorem eightTypes_lose_one :
    ∃ s, exec (LoggerRun.step 0) (.new newLogger) (registerAll eightTypes) = some s ∧
      s.types = eightTypes.reverse ∧ loggerGetHandler 8 s.lep 0xf0000000#32 = some none ∧
      ¬ Dispatches 0 s := by
  have h : (exec (LoggerRun.step 0) (.new newLogger) (registerAll eightTypes)).map
      (fun s => (s.types, s.registered.length, loggerGetHandler 8 s.lep 0xf0000000#32)) =
        some (eightTypes.reverse, 8, some none) := by decide +kernel
  obtain ⟨s, hrun, hs⟩ := Option.map_eq_some_iff.1 h
  simp only [Prod.mk.injEq] at hs
  obtain ⟨htypes, hlength, hnone⟩ := hs
  refine ⟨s, hrun, htypes, hnone, fun hd => ?_⟩
  have hmem : 0xf0000000#32 ∈ s.types := by
    rw [htypes]
    decide
  obtain ⟨r, hr, htype⟩ := List.mem_map.1 hmem
  have hfound := (hd.found r hr 8 hlength.le).1
  rw [htype, hnone] at hfound
  cases hfound

/-- Three types in half a window, the last below the first. -/
theorem dispatches_of_windowKept_three :
    Throughout (LoggerRun.step 0) (fun s => Dispatches 0 s ∧ Registers 0 s) (.new newLogger)
      (registerAll [0xfffffffe#32, 5#32, 0xfffffff0#32, 5#32]) := by
  refine dispatches_of_windowKept 0 newLogger_eq _
    (meets_windowKept 0 0xfffffff0#32 _ ?_ fun t ht => by cases ht)
  intro t func calloc hmem
  simp only [registerAll, List.map_cons, List.map_nil, List.mem_cons, List.not_mem_nil, or_false,
    LoggerCall.addMessageHandler.injEq] at hmem
  rcases hmem with ⟨rfl, -⟩ | ⟨rfl, -⟩ | ⟨rfl, -⟩ | ⟨rfl, -⟩ <;> decide

end Tsl
