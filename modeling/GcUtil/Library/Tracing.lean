import Mathlib

/-! The tri-colour argument, over any graph of objects. An object designates sources, a
source refers to objects. A tracer marks objects and keeps a set of sources it has still
to look at; `Advance` is what each of its moves must satisfy, and `Scanned` is the
invariant that the moves keep. -/
namespace GcUtil.Library.Tracing

structure RefGraph (Src Obj : Type) where
  sources : Obj → List Src
  refs : Src → Obj → Prop

structure View (Src Obj : Type) where
  marked : Obj → Prop
  pending : Src → Prop

variable {Src Obj : Type} (G : RefGraph Src Obj)

inductive Reach (rootObj : Obj → Prop) (rootSrc : Src → Prop) : Obj → Prop where
  | object {o} : rootObj o → Reach rootObj rootSrc o
  | source {src o} : rootSrc src → G.refs src o → Reach rootObj rootSrc o
  | edge {o src o'} : Reach rootObj rootSrc o → src ∈ G.sources o → G.refs src o' →
      Reach rootObj rootSrc o'

def Covered (v : View Src Obj) (src : Src) : Prop := ∀ o, G.refs src o → v.marked o

def Settled (v : View Src Obj) (src : Src) : Prop := Covered G v src ∨ v.pending src

/-- Every marked object has all its sources settled, unless it is exempt. -/
def Scanned (v : View Src Obj) (exempt : Obj → Prop) : Prop :=
  ∀ o, v.marked o → exempt o ∨ ∀ src ∈ G.sources o, Settled G v src

structure Advance (v v' : View Src Obj) : Prop where
  marked : ∀ o, v.marked o → v'.marked o
  settled : ∀ src, Settled G v src → Settled G v' src
  fresh : ∀ o, ¬ v.marked o → v'.marked o → ∀ src ∈ G.sources o, Settled G v' src

variable {G} {v v' v'' : View Src Obj} {src : Src}

theorem Covered.mono (h : Covered G v src) (hmarked : ∀ o, v.marked o → v'.marked o) :
    Covered G v' src :=
  fun o ho => hmarked o (h o ho)

theorem Settled.mono (h : Settled G v src) (hmarked : ∀ o, v.marked o → v'.marked o)
    (hpending : v.pending src → v'.pending src) : Settled G v' src :=
  h.imp (fun hc => hc.mono hmarked) hpending

theorem Settled.covered (h : Settled G v src) (hempty : ¬ v.pending src) : Covered G v src :=
  h.resolve_right hempty

theorem Advance.refl (v : View Src Obj) : Advance G v v where
  marked _ h := h
  settled _ h := h
  fresh _ hno h := absurd h hno

theorem Advance.trans (h : Advance G v v') (h' : Advance G v' v'') : Advance G v v'' where
  marked o ho := h'.marked o (h.marked o ho)
  settled src hsrc := h'.settled src (h.settled src hsrc)
  fresh o hno ho src hsrc := by
    by_cases ho' : v'.marked o
    · exact h'.settled src (h.fresh o hno ho' src hsrc)
    · exact h'.fresh o ho' ho src hsrc

theorem Advance.scanned (h : Advance G v v') {exempt : Obj → Prop} (hs : Scanned G v exempt) :
    Scanned G v' exempt := by
  intro o ho
  by_cases hold : v.marked o
  · exact (hs o hold).imp_right fun hall src hsrc => h.settled src (hall src hsrc)
  · exact .inr (h.fresh o hold ho)

theorem Scanned.mono {exempt exempt' : Obj → Prop} (h : Scanned G v exempt)
    (himp : ∀ o, v.marked o → exempt o → exempt' o ∨ ∀ src ∈ G.sources o, Settled G v src) :
    Scanned G v exempt' := by
  intro o ho
  rcases h o ho with he | hall
  · exact himp o ho he
  · exact .inr hall

/-- With nothing left to look at, the marked objects hold everything reachable. -/
theorem Reach.marked {rootObj : Obj → Prop} {rootSrc : Src → Prop} {o : Obj}
    (h : Reach G rootObj rootSrc o) (hobj : ∀ o, rootObj o → v.marked o)
    (hsrc : ∀ src, rootSrc src → Covered G v src)
    (hall : ∀ o, v.marked o → ∀ src ∈ G.sources o, Covered G v src) : v.marked o := by
  induction h with
  | object ho => exact hobj _ ho
  | source hs hr => exact hsrc _ hs _ hr
  | edge _ hs hr ih => exact hall _ ih _ hs _ hr

end GcUtil.Library.Tracing
