import GcUtil.Finalize.Collection

/-! The calls that change the tables of `finalize.c`. A call holds the allocator lock and is
one step, except that a registration which finds no memory gives up the lock to ask the
out-of-memory function: it is then pending, and goes on in a later step. An allocation may
run collections first, each of which is given by the marker at the end of its mark phase. -/
namespace GcUtil.Finalize.Registration
open Basic Tables Collection Library.ChainedTable

inductive Code where
  | success
  | duplicate
  | noMemory
  | unimplemented
  | notFound
deriving DecidableEq, Repr

/-- What a call returns: a code, whether a link was found, the values stored through `ofn`
and `ocd`, nothing, or nothing yet. -/
inductive Ret where
  | code (c : Code)
  | found (b : Bool)
  | previous (fn cd : Nat)
  | nothing
  | pending
deriving DecidableEq, Repr

structure Allocation (M : Type) where
  collections : List M
  ok : Bool

/-- What `GC_grow_table` meets: the collection that the ordinary policy requests, if any, and
the allocation of the new table. -/
structure Growth (M : Type) where
  policy : Option M
  alloc : Allocation M

inductive Pending where
  | link (isLong : Bool) (link obj : Nat)
  | finalizer (obj fn cd : Nat) (mp : MarkProc) (objectSz : Nat)
deriving DecidableEq, Repr

structure State where
  fnlz : Fnlz
  findLeak : Bool
  pending : List Pending

structure TableRef (ε : Type) where
  get : Fnlz → HashTbl ε
  set : HashTbl ε → Fnlz → Fnlz

def linkTable (isLong : Bool) : TableRef DisappearingLink where
  get s := if isLong then s.ll else s.dl
  set t s := if isLong then { s with ll := t } else { s with dl := t }

/-- `GC_fnlz_roots.fo_head`, `GC_log_fo_table_size` and `GC_fo_entries`. -/
def foTable : TableRef FinalizableObject where
  get s := s.fo
  set t s := { s with fo := t }

def onGrowLogSizeMin : Nat := 12

section Calls

variable {M ε : Type} (K : Marker M) [HashChainEntry ε]

def collect (s : Fnlz) (ms : List M) : Fnlz := ms.foldl (fun s m => (finalize K s m).2) s

/-- The allocation of the new table in `GC_grow_table` and the move to it; `none` is `ABORT`. -/
def enlarge (ref : TableRef ε) (a : Allocation M) (s : Fnlz) : Option Fnlz :=
  let s := collect K s a.collections
  if a.ok then some (ref.set (ref.get s).rehash s)
  else if (ref.get s).head.isNone then none
  else some s

def growTable (ref : TableRef ε) (g : Growth M) (s : Fnlz) : Option Fnlz :=
  match g.policy with
  | none => enlarge K ref g.alloc s
  | some m =>
      if (ref.get s).logSize < onGrowLogSizeMin then enlarge K ref g.alloc s
      else
        let size := 2 ^ (ref.get s).logSize
        let s := (finalize K s m).2
        if (ref.get s).entries < wordSub size ((ref.get s).entries >>> 2) then some s
        else enlarge K ref g.alloc s

def ensureTable (ref : TableRef ε) (g : Growth M) (s : Fnlz) : Option Fnlz :=
  if (ref.get s).head.isNone ∨ 2 ^ (ref.get s).logSize < (ref.get s).entries then growTable K ref g s
  else some s

/-- `GC_register_disappearing_link_inner`, up to the call of the out-of-memory function. -/
def registerDisappearingLinkInner (isLong : Bool) (link obj : Nat) (g : Growth M) (a : Allocation M)
    (s : State) : Option (Ret × State) :=
  let ref := linkTable isLong
  if s.findLeak then some (.code .unimplemented, s)
  else
    match ensureTable K ref g s.fnlz with
    | none => none
    | some f =>
        match (ref.get f).rewriteKey link fun e => { e with hiddenObj := hidePointer obj } with
        | some t => some (.code .duplicate, { s with fnlz := ref.set t f })
        | none =>
            let index := hash2 link (ref.get f).logSize
            let f := collect K f a.collections
            if a.ok then
              let new := { hiddenLink := hidePointer link, hiddenObj := hidePointer obj }
              some (.code .success, { s with fnlz := ref.set ((ref.get f).insertAt index new) f })
            else some (.pending, { s with fnlz := f, pending := s.pending ++ [.link isLong link obj] })

/-- `GC_register_disappearing_link_inner`, once the out-of-memory function has returned. -/
def resumeLink (isLong : Bool) (link obj : Nat) (memory : Bool) (f : Fnlz) : Ret × Fnlz :=
  let ref := linkTable isLong
  if memory then
    match (ref.get f).rewriteKey link fun e => { e with hiddenObj := hidePointer obj } with
    | some t => (.code .duplicate, ref.set t f)
    | none =>
        let new := { hiddenLink := hidePointer link, hiddenObj := hidePointer obj }
        (.code .success, ref.set ((ref.get f).insertAt (hash2 link (ref.get f).logSize) new) f)
  else (.code .noMemory, f)

/-- `GC_general_register_disappearing_link` and `GC_register_long_link`. -/
def generalRegisterDisappearingLink (isLong : Bool) (link obj : Nat) (g : Growth M) (a : Allocation M)
    (s : State) : Option (Ret × State) :=
  if link % alignment ≠ 0 ∨ link = 0 then none
  else registerDisappearingLinkInner K isLong link obj g a s

def unregisterDisappearingLinkInner (isLong : Bool) (link : Nat) (f : Fnlz) : Bool × Fnlz :=
  let ref := linkTable isLong
  match (ref.get f).unlinkKey link with
  | none => (false, f)
  | some (_, t) => (true, ref.set { t with entries := t.entries - 1 } f)

/-- `GC_unregister_disappearing_link` and `GC_unregister_long_link`. -/
def unregisterDisappearingLink (isLong : Bool) (link : Nat) (f : Fnlz) : Bool × Fnlz :=
  if link % alignment ≠ 0 then (false, f) else unregisterDisappearingLinkInner isLong link f

def moveDisappearingLinkInner (isLong : Bool) (link newLink : Nat) (f : Fnlz) : Code × Fnlz :=
  let ref := linkTable isLong
  match (ref.get f).unlinkKey link with
  | none => (.notFound, f)
  | some (curr, t) =>
      if link = newLink then (.success, f)
      else if ((ref.get f).find newLink).isSome then (.duplicate, f)
      else
        let newIndex := hash2 newLink (ref.get f).logSize
        let moved := { curr with hiddenLink := hidePointer newLink }
        (.success, ref.set (t.setChain newIndex (moved :: t.chain newIndex)) f)

/-- `GC_move_disappearing_link` and `GC_move_long_link`. -/
def moveDisappearingLink (isLong : Bool) (link newLink : Nat) (f : Fnlz) : Option (Code × Fnlz) :=
  if newLink % alignment ≠ 0 ∨ newLink = 0 then none
  else if link % alignment ≠ 0 then some (.notFound, f)
  else some (moveDisappearingLinkInner isLong link newLink f)

variable (obj fn cd : Nat) (mp : MarkProc)

/-- What `GC_register_finalizer_inner` does where it finds an entry for the object. -/
def replaceFinalizer (t : HashTbl FinalizableObject) : Option (HashTbl FinalizableObject) :=
  if fn = 0 then (t.unlinkKey obj).map fun r => { r.2 with entries := r.2.entries - 1 }
  else t.rewriteKey obj fun e => { e with fn := fn, clientData := cd, markProc := mp }

def previous (t : HashTbl FinalizableObject) : Ret :=
  match t.find obj with
  | none => .previous 0 0
  | some e => .previous e.fn e.clientData

def newFinalizer (objectSz : Nat) : FinalizableObject :=
  { hiddenBase := hidePointer obj, fn := fn, markProc := mp, clientData := cd, objectSz := objectSz }

/-- `GC_register_finalizer_inner`, up to the call of the out-of-memory function. `hbSz` is the
object size in the header of the object, if it has one. -/
def registerFinalizerInner (hbSz : Option Nat) (g : Growth M)
    (a : Allocation M) (s : State) : Option (Ret × State) :=
  if s.findLeak then some (.nothing, s)
  else
    match ensureTable K foTable g
        { s.fnlz with
          needUnreachableFinalization := s.fnlz.needUnreachableFinalization || mp == .unreachable } with
    | none => none
    | some f =>
        match replaceFinalizer obj fn cd mp f.fo, hbSz with
        | some t, _ => some (previous obj f.fo, { s with fnlz := { f with fo := t } })
        | none, none => some (.previous 0 0, { s with fnlz := f })
        | none, some objectSz =>
            if fn = 0 then some (.previous 0 0, { s with fnlz := f })
            else
              let index := hash2 obj f.fo.logSize
              let f := collect K f a.collections
              if a.ok then
                let new := newFinalizer obj fn cd mp objectSz
                some (.previous 0 0, { s with fnlz := { f with fo := f.fo.insertAt index new } })
              else
                some (.pending,
                  { s with fnlz := f, pending := s.pending ++ [.finalizer obj fn cd mp objectSz] })

/-- `GC_register_finalizer_inner`, once the out-of-memory function has returned. -/
def resumeFinalizer (objectSz : Nat) (memory : Bool) (f : Fnlz) :
    Ret × Fnlz :=
  if memory then
    match replaceFinalizer obj fn cd mp f.fo with
    | some t => (previous obj f.fo, { f with fo := t })
    | none =>
        let new := newFinalizer obj fn cd mp objectSz
        (.previous 0 0, { f with fo := f.fo.insertAt (hash2 obj f.fo.logSize) new })
  else (.nothing, f)

def registerFinalizer := registerFinalizerInner K obj fn cd .normal

def registerFinalizerIgnoreSelf := registerFinalizerInner K obj fn cd .ignoreSelf

def registerFinalizerNoOrder := registerFinalizerInner K obj fn cd .null

def registerFinalizerUnreachable := registerFinalizerInner K obj fn cd .unreachable

end Calls

section Runs

variable {M : Type} (K : Marker M)

inductive Call (M : Type) where
  | registerLink (isLong : Bool) (link obj : Nat) (g : Growth M) (a : Allocation M)
  | registerFinalizer (obj fn cd : Nat) (mp : MarkProc) (hbSz : Option Nat) (g : Growth M) (a : Allocation M)
  | resume (i : Nat) (memory : Bool)
  | unregisterLink (isLong : Bool) (link : Nat)
  | moveLink (isLong : Bool) (link newLink : Nat)
  | collect (m : M)
  | enqueueAll (m : M)
  | invokeFinalizer
  | setJavaFinalization (value : Bool)
  | togglerefAdd (obj : Nat) (isStrong : Bool)

def resumePending (memory : Bool) (p : Pending) (f : Fnlz) : Ret × Fnlz :=
  match p with
  | .link isLong link obj => resumeLink isLong link obj memory f
  | .finalizer obj fn cd mp objectSz => resumeFinalizer obj fn cd mp objectSz memory f

/-- One step. `invokeFinalizer` is the part of `GC_invoke_finalizers` that takes an entry off
the queue; the finalizer itself is client code. -/
def exec (s : State) : Call M → Option (Ret × State)
  | .registerLink isLong link obj g a => generalRegisterDisappearingLink K isLong link obj g a s
  | .registerFinalizer obj fn cd mp hbSz g a => registerFinalizerInner K obj fn cd mp hbSz g a s
  | .resume i memory =>
      match s.pending[i]? with
      | none => some (.nothing, s)
      | some p =>
          let r := resumePending memory p s.fnlz
          some (r.1, { s with fnlz := r.2, pending := s.pending.eraseIdx i })
  | .unregisterLink isLong link =>
      let r := unregisterDisappearingLink isLong link s.fnlz
      some (.found r.1, { s with fnlz := r.2 })
  | .moveLink isLong link newLink =>
      (moveDisappearingLink isLong link newLink s.fnlz).map fun r => (.code r.1, { s with fnlz := r.2 })
  | .collect m => some (.nothing, { s with fnlz := (finalize K s.fnlz m).2 })
  | .enqueueAll m => some (.nothing, { s with fnlz := (enqueueAllFinalizers K s.fnlz m).2 })
  | .invokeFinalizer =>
      some (.nothing, { s with fnlz := { s.fnlz with finalizeNow := s.fnlz.finalizeNow.tail } })
  | .setJavaFinalization value =>
      some (.nothing, { s with fnlz := { s.fnlz with javaFinalization := value } })
  | .togglerefAdd obj isStrong =>
      let ref := if isStrong then obj else hidePointer obj
      some (.nothing, { s with fnlz := { s.fnlz with toggleRefs := s.fnlz.toggleRefs ++ [ref] } })

def execAll : List (Call M) → State → Option State
  | [], s => some s
  | c :: cs, s => (exec K s c).bind fun r => execAll cs r.2

def init (java findLeak : Bool) : State where
  fnlz :=
    { dl := .empty
      ll := .empty
      fo := .empty
      finalizeNow := []
      bytesFinalized := 0
      toggleRefs := []
      javaFinalization := java
      needUnreachableFinalization := false }
  findLeak := findLeak
  pending := []

end Runs

end GcUtil.Finalize.Registration
