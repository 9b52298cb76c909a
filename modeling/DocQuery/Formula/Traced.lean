/-
Evaluations that leave a trace.

* `Sighting` — a value of a document that an evaluation came across, and how much of it counts;
* `Sighting.touches` — whether a place that is still to be computed is noticed in a sighting;
* `Traced` — a result or a fault, with all that was seen on the way;
* `Traced.touches`, `Traced.dependsOn` — whether a place still to be computed was noticed on the
  way, and whether there was one at all.

Design notes: what was seen before a fault stays seen. Which places are still to be computed plays
no part in an evaluation, so the same trace answers the question for any of them. The trace also
holds what is searched or counted on the way without being noticed, as the items before the one that
a position leads to.
-/
import DocQuery.Fault
import DocQuery.Path

namespace DocQuery

/-- A value that an evaluation came across. Either the whole of it counts, with all that it
contains, or the evaluation only passed through it. -/
structure Sighting where
  path : Path
  isWhole : Bool
  /-- whether a place that is still to be computed is noticed there -/
  isNoticed : Bool
deriving DecidableEq, Repr

namespace Sighting

/-- Whether what was seen depends on the value at `pending`: it lies there or inside, or it contains
that place and counts as a whole. -/
def reaches (s : Sighting) (pending : Path) : Bool :=
  match s.path.compare pending with
  | .equal | .child => true
  | .parent => s.isWhole
  | .sibling | .unrelated => false

/-- Whether it is noticed that what was seen depends on the value at `pending`. -/
def touches (s : Sighting) (pending : Path) : Bool :=
  s.isNoticed && s.reaches pending

end Sighting

/-- A result or a fault, and what was seen on the way to it. -/
structure Traced (α : Type) where
  outcome : Except Fault α
  sightings : List Sighting

namespace Traced

variable {α β : Type}

/-- A result for which nothing has to be seen. -/
def ofExcept (outcome : Except Fault α) : Traced α := ⟨outcome, []⟩

/-- Sees values. -/
def see (sightings : List Sighting) : Traced Unit := ⟨.ok (), sightings⟩

/-- A computation on the result of another one, unless that failed. -/
def bind (x : Traced α) (f : α → Traced β) : Traced β :=
  match x.outcome with
  | .error fault => ⟨.error fault, x.sightings⟩
  | .ok a => ⟨(f a).outcome, x.sightings ++ (f a).sightings⟩

instance : Monad Traced where
  pure a := ofExcept (.ok a)
  bind := bind

/-- Whether it is noticed that anything that was seen depends on one of the places in `pending`. -/
def touches (x : Traced α) (pending : List Path) : Bool :=
  x.sightings.any fun s => pending.any s.touches

/-- Whether anything that was seen depends on one of the places in `pending`. -/
def dependsOn (x : Traced α) (pending : List Path) : Bool :=
  x.sightings.any fun s => pending.any s.reaches

end Traced

end DocQuery
