import PS3Native.BitField

/-!
# Fragment programs and their flow graphs

A fragment program is a sequence of 128-bit words. A block is addressed by its id where the source
holds a pointer to it; `FlowGraph.push` never creates an id twice, so the two are interchangeable.
-/
namespace PS3Native.FragmentProgram
open List

/-- One 128-bit word of a program, as the four dwords `dst`, `src0`, `src1` and `src2`. -/
structure Quad where
  dst : BitVec 32
  src0 : BitVec 32
  src1 : BitVec 32
  src2 : BitVec 32
deriving DecidableEq, Repr

def decodeWord (raw : BitVec 32) : BitVec 32 :=
  (0xff00ff00#32 &&& (raw <<< 8)) ||| (0x00ff00ff#32 &&& (raw >>> 8))

def decodeInstruction (raw : Quad) : Quad where
  dst := decodeWord raw.dst
  src0 := decodeWord raw.src0
  src1 := decodeWord raw.src1
  src2 := decodeWord raw.src2

/-! The fields of `OPDEST`. -/
namespace OpDest

def endFlag : BitField := ⟨0,1⟩
def destReg : BitField := ⟨1,6⟩
def fp16 : BitField := ⟨7,1⟩
def writeMask : BitField := ⟨9,4⟩
def prec : BitField := ⟨22,2⟩
def opcode : BitField := ⟨24,6⟩
def noDest : BitField := ⟨30,1⟩
def saturate : BitField := ⟨31,1⟩

end OpDest

/-! The fields that `SRC0`, `SRC1` and `SRC2` have in common. -/
namespace Src

def regType : BitField := ⟨0,2⟩
def tmpRegIndex : BitField := ⟨2,6⟩
def fp16 : BitField := ⟨8,1⟩
def swizzleX : BitField := ⟨9,2⟩
def swizzleY : BitField := ⟨11,2⟩
def swizzleZ : BitField := ⟨13,2⟩
def swizzleW : BitField := ⟨15,2⟩
def neg : BitField := ⟨17,1⟩

end Src

namespace Src0

def execIfLt : BitField := ⟨18,1⟩
def execIfEq : BitField := ⟨19,1⟩
def execIfGr : BitField := ⟨20,1⟩
def abs : BitField := ⟨29,1⟩

end Src0

namespace Src1

def abs : BitField := ⟨18,1⟩
def src0PrecMod : BitField := ⟨19,3⟩
def src1PrecMod : BitField := ⟨22,3⟩
def src2PrecMod : BitField := ⟨25,3⟩
def scale : BitField := ⟨28,3⟩
def opcodeHi : BitField := ⟨31,1⟩
def elseOffset : BitField := ⟨0,31⟩

end Src1

namespace Opcode

def nop : ℕ := 0x00
def pk2 : ℕ := 0x24
def up2 : ℕ := 0x25
def fenct : ℕ := 0x3D
def fencb : ℕ := 0x3E
def brk : ℕ := 0x40
def cal : ℕ := 0x41
def ife : ℕ := 0x42
def loop : ℕ := 0x43
def rep : ℕ := 0x44
def ret : ℕ := 0x45
def or16Lo : ℕ := 0x46
def or16Hi : ℕ := 0x47

end Opcode

def registerTypeTemp : ℕ := 0
def registerTypeConstant : ℕ := 2

def precisionReal : ℕ := 0
def precisionHalf : ℕ := 1

namespace Quad

def isEnd (q : Quad) : Bool := OpDest.endFlag.get q.dst != 0

def opcodeHi (q : Quad) : ℕ := Src1.opcodeHi.get q.src1

def opcode (q : Quad) : ℕ := OpDest.opcode.get q.dst ||| (q.opcodeHi <<< 6)

def regType (hex : BitVec 32) : ℕ := Src.regType.get hex

def includesLiteralConstant (q : Quad) : Bool :=
  regType q.src0 == registerTypeConstant || regType q.src1 == registerTypeConstant ||
    regType q.src2 == registerTypeConstant

/-- The address, in 128-bit words, of the end of an `IFE`, `LOOP` or `REP`. -/
def endAddr (q : Quad) : ℕ := q.src2.toNat >>> 2

/-- The address, in 128-bit words, of the `ELSE` part of an `IFE`. -/
def elseAddr (q : Quad) : ℕ := Src1.elseOffset.get q.src1 >>> 2

/-- Flips `exec_if_lt`, `exec_if_eq` and `exec_if_gr`, bits 18 to 20 of `src0`. -/
def invertConditionalExecutionMask (q : Quad) : Quad :=
  {q with src0 := q.src0 ^^^ (0b111#32 <<< 18)}

end Quad

structure Register where
  id : ℕ := 0
  f16 : Bool := false
deriving DecidableEq, Repr

/-- A register with a lane mask: bit 0 is lane `x`, bit 3 is lane `w`. -/
structure RegisterRef where
  reg : Register := {}
  mask : BitVec 4 := 0
deriving DecidableEq, Repr

/-- An instruction: its 128-bit code, up to 128 bits of embedded literal, its byte address,
and the registers it reads and writes once annotated. -/
structure Instruction where
  bytecode : Quad := ⟨0,0,0,0⟩
  literal : Quad := ⟨0,0,0,0⟩
  addr : ℕ := 0
  opcode : ℕ := 0
  length : ℕ := 4
  srcs : List RegisterRef := []
  dsts : List RegisterRef := []
deriving DecidableEq, Repr

inductive EdgeType
  | none | ifBranch | elseBranch | endIf | loop | endLoop
deriving DecidableEq, Repr

structure FlowEdge where
  type : EdgeType
  source : ℕ
  target : ℕ
deriving DecidableEq, Repr

structure BasicBlock where
  id : ℕ := 0
  instructions : List Instruction := []
  succ : List FlowEdge := []
  pred : List FlowEdge := []
  prologue : List Instruction := []
  epilogue : List Instruction := []
  inputList : List RegisterRef := []
  clobberList : List RegisterRef := []
deriving DecidableEq, Repr

namespace BasicBlock

def insertSucc (b : BasicBlock) (target : ℕ) (type : EdgeType) : BasicBlock :=
  {b with succ := b.succ++[⟨type,b.id,target⟩]}

def insertPred (b : BasicBlock) (source : ℕ) (type : EdgeType) : BasicBlock :=
  {b with pred := b.pred++[⟨type,source,b.id⟩]}

end BasicBlock

structure FlowGraph where
  blocks : List BasicBlock := []
deriving DecidableEq, Repr

namespace FlowGraph

def ids (g : FlowGraph) : List ℕ := g.blocks.map (·.id)

def find (g : FlowGraph) (id : ℕ) : Option BasicBlock := g.blocks.find? (·.id=id)

def succ (g : FlowGraph) (id : ℕ) : List FlowEdge := (g.find id).elim [] (·.succ)

def pred (g : FlowGraph) (id : ℕ) : List FlowEdge := (g.find id).elim [] (·.pred)

def modify (g : FlowGraph) (id : ℕ) (f : BasicBlock → BasicBlock) : FlowGraph :=
  ⟨g.blocks.map fun b => if b.id=id then f b else b⟩

/-- `insert_succ` on the parent followed by `insert_pred` on the child. -/
def insertEdge (g : FlowGraph) (parent child : ℕ) (type : EdgeType) : FlowGraph :=
  (g.modify parent (·.insertSucc child type)).modify child (·.insertPred parent type)

def push (g : FlowGraph) (parent id : ℕ) (type : EdgeType) : FlowGraph :=
  FlowGraph.insertEdge ⟨g.blocks++[{id := id}]⟩ parent id type

def isOfType (g : FlowGraph) (id : ℕ) (type : EdgeType) : Bool :=
  (g.pred id).map (·.type) == [type]

def sorted (g : FlowGraph) : FlowGraph :=
  ⟨(g.blocks.map fun b =>
      { b with
        pred := b.pred.insertionSort fun x y => y.source ≤ x.source
        succ := b.succ.insertionSort fun x y => x.target ≤ y.target }).insertionSort
    fun x y => x.id ≤ y.id⟩

theorem exists_find {g : FlowGraph} {id : ℕ} (h : id∈g.ids) :
    ∃ b∈g.blocks, b.id=id ∧ g.find id = some b := by
  obtain ⟨b,hb,hid⟩ := mem_map.mp h
  cases hfind : g.find id with
  | none =>
    have := find?_eq_none.mp hfind b hb
    simp [hid] at this
  | some b' =>
    exact ⟨b',mem_of_find?_eq_some hfind,by simpa using find?_some hfind,rfl⟩

theorem find_of_mem {g : FlowGraph} (h : g.ids.Nodup) {b : BasicBlock} (hb : b∈g.blocks) :
    g.find b.id = some b := by
  obtain ⟨b',hb',hid,hfind⟩ := exists_find (mem_map_of_mem hb : b.id∈g.ids)
  rw [hfind,inj_on_of_nodup_map h hb' hb hid]

end FlowGraph

end PS3Native.FragmentProgram
