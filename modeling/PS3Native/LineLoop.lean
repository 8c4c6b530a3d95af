import PS3Native.IndexExpansion

/-!
# Emulated line loops

Vulkan has no line loops: an indexed one is uploaded as a line strip that ends with its first index
again.
-/
namespace PS3Native.LineLoop
open IndexExpansion

inductive PrimitiveType
  | points | lines | lineLoop | lineStrip | triangles | triangleStrip | triangleFan | quads
  | quadStrip | polygon
  deriving DecidableEq

/-- `is_primitive_native` of the buffer utilities. -/
def isPrimitiveNative : PrimitiveType → Bool
  | .lineLoop | .polygon | .triangleFan | .quads => false
  | _ => true

def isPrimitiveDisjointed : PrimitiveType → Bool
  | .lineLoop | .lineStrip | .polygon | .quadStrip | .triangleFan | .triangleStrip => false
  | _ => true

/-- Whether Vulkan emulates the primitive (`get_appropriate_topology`). -/
def primitivesEmulated : PrimitiveType → Bool
  | .lineLoop | .quads | .polygon => true
  | _ => false

def getIndexCount (drawMode : PrimitiveType) (initialIndexCount : BitVec 32) : BitVec 32 :=
  if isPrimitiveNative drawMode then initialIndexCount
  else match drawMode with
    | .lineLoop => initialIndexCount+1
    | .polygon | .triangleFan => (initialIndexCount-2)*3
    | .quads => 6*initialIndexCount/4
    | _ => 0

/-- What an upload returns, and the entries that it writes, with their positions. -/
structure Upload (w : ℕ) where
  range : BitVec w × BitVec w
  indexCount : ℕ
  writes : List (ℕ × BitVec w)
  deriving DecidableEq

variable {w : ℕ}

def atFront (written : List (BitVec w)) : List (ℕ × BitVec w) := written.zipIdx.map Prod.swap

def uploadUntouched (restart : BitVec w → Bool) (src : List (BitVec w)) (drawMode : PrimitiveType) :
    Upload w :=
  let range := (src.filter (!restart ·)).foldl minMax (indexLimit w,0)
  if isPrimitiveDisjointed drawMode then
    let written := src.filter (!restart ·)
    ⟨range,written.length,atFront written⟩
  else ⟨range,src.length,atFront (src.map fun i => if restart i then indexLimit w else i)⟩

/-- The closing index of a line loop goes behind the destination, whose size includes it. -/
def writeIndexArrayDataToBufferImpl (restart : BitVec w → Bool) (dstSize : ℕ) (src : List (BitVec w))
    (drawMode : PrimitiveType) : Option (Upload w) :=
  let expanded (r : (BitVec w × BitVec w) × List (BitVec w)) : Upload w :=
    ⟨r.1,r.2.length,atFront r.2⟩
  if !primitivesEmulated drawMode then some (uploadUntouched restart src drawMode)
  else match drawMode with
    | .lineLoop =>
      let returnvalue := uploadUntouched restart src drawMode
      let indexCount := dstSize
      some { returnvalue with
        writes := returnvalue.writes++src.head?.toList.map fun first => (indexCount,first) }
    | .polygon | .triangleFan => (expandIndexedTriangleFan restart src dstSize).map expanded
    | .quads => (expandIndexedQuads restart src dstSize).map expanded
    | _ => none

/-- The size of the destination in `draw_command_visitor`, in indices of `typeSize` bytes. -/
def destinationSize (drawMode : PrimitiveType) (elementsCount typeSize : ℕ) : ℕ :=
  let count := BitVec.ofNat 32 elementsCount
  let indexCount := if primitivesEmulated drawMode then getIndexCount drawMode count else count
  (indexCount*BitVec.ofNat 32 typeSize).toNat/typeSize

/-- The upload writes the indices, then the first one again, and counts it. -/
def Closed (src : List (BitVec w)) (dstSize : ℕ) (u : Upload w) : Prop :=
  (∃ first, src.head? = some first ∧ u.writes = atFront src++[(src.length,first)]) ∧
    (∀ p∈u.writes, p.1 < dstSize) ∧ u.indexCount = src.length+1

/-- An indexed line loop without restarts is never closed: its last write is behind the destination,
and the count leaves it out. -/
theorem lineLoop_not_closed {src : List (BitVec w)} (hsrc : src≠[]) (restartIndex : BitVec 32)
    (typeSize : ℕ) :
    ∃ u first, writeIndexArrayDataToBufferImpl (isRestart false restartIndex)
        (destinationSize .lineLoop src.length typeSize) src .lineLoop = some u ∧
      src.head? = some first ∧
      u.writes = atFront src++[(destinationSize .lineLoop src.length typeSize,first)] ∧
      u.indexCount=src.length ∧
      ¬Closed src (destinationSize .lineLoop src.length typeSize) u := by
  obtain ⟨first,rest,rfl⟩ := List.exists_cons_of_ne_nil hsrc
  have hmap : (first::rest).map (fun i => if isRestart false restartIndex i then indexLimit w else i) =
      first::rest := by
    simp [isRestart]
  refine ⟨_,first,rfl,rfl,?_,rfl,?_⟩
  · simp only [uploadUntouched,isPrimitiveDisjointed,Bool.false_eq_true,if_false,hmap]
    rfl
  · rintro ⟨-,-,hcount⟩
    simp [uploadUntouched,isPrimitiveDisjointed] at hcount

theorem lineLoop_not_closed_triangle :
    ([1,2,3] : List (BitVec 16))≠[] ∧ ∃ u, writeIndexArrayDataToBufferImpl (isRestart false 0)
      (destinationSize .lineLoop 3 2) ([1,2,3] : List (BitVec 16)) .lineLoop = some u ∧
        ¬Closed [1,2,3] (destinationSize .lineLoop 3 2) u := by
  obtain ⟨u,first,hu,-,-,-,hopen⟩ := lineLoop_not_closed
    (by decide : ([1,2,3] : List (BitVec 16))≠[]) 0 2
  exact ⟨by decide,u,hu,hopen⟩

/-- Three indices in a destination for four: the closing one goes to position 4. -/
theorem lineLoop_behind_destination : destinationSize .lineLoop 3 2=4 ∧
    writeIndexArrayDataToBufferImpl (isRestart false 0) 4 ([1,2,3] : List (BitVec 16)) .lineLoop =
      some ⟨(1,3),3,[(0,1),(1,2),(2,3),(4,1)]⟩ ∧
    ¬Closed ([1,2,3] : List (BitVec 16)) 4 ⟨(1,3),3,[(0,1),(1,2),(2,3),(4,1)]⟩ :=
  ⟨by decide,by decide,fun h => absurd h.2.2 (by decide)⟩

end PS3Native.LineLoop
