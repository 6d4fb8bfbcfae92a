import LoomImport.Translator

/-!
# Memory writes

The core memory action writes a whole word, and a write port of the source has a mask of its bits. Each port's word is completed with
the writes of the ports before it to the same address: all expressions read the memory before the cycle, and the whole words are
committed in order. A leading run of ports at constant addresses is grouped by address first.
-/

namespace LoomImport

open ImportIR

/-- The expressions a write port is translated from: its address, its mask and its data. -/
structure WriteOperands where
  full : Expr
  enable : Expr
  data : Expr

/-- A write port: its address in the memory, its mask, cleared where the address is out of range, and its data. The key is the
address as the source has it, when it is a constant. -/
structure WritePort where
  address : Expr
  mask : Expr
  data : Expr
  key : Option (List Bit)

namespace MemoryInfo

variable (info : MemoryInfo)

/-- The address of a write port as the source has it, when every bit of it is known. -/
def staticKey (port : Nat) : Option (List Bit) :=
  let raw := portBits (info.cell.connection "WR_ADDR") port info.abits
  if raw.all Bit.isKnown then some raw else none

end MemoryInfo

/-- One write port. -/
def writePort (expr : List Bit → SourceLocation → M Expr) (info : MemoryInfo) (port : Nat) : M WritePort := do
  let (address, inRange) ← memoryAddress expr info port true
  let enable ← expr (portBits (info.cell.connection "WR_EN") port info.width) info.source
  let mask :=
    if info.abits = info.addressWidth then enable
    else .mux info.width inRange enable (.literal info.width 0 info.source) info.source
  let data ← expr (portBits (info.cell.connection "WR_DATA") port info.width) info.source
  pure { address := address, mask := mask, data := data, key := info.staticKey port }

namespace MemoryInfo

variable (info : MemoryInfo)

/-- The bits a mask selects, replaced by those of the data. -/
def mergeExpr (old mask data : Expr) : Expr :=
  .binary info.width .bitOr
    (.binary info.width .bitAnd old (.unary info.width .bitNot mask info.source) info.source)
    (.binary info.width .bitAnd data mask info.source) info.source

/-- Two ports at one constant address. -/
def joinPorts (old port : WritePort) : WritePort :=
  { old with
    mask := .binary info.width .bitOr old.mask port.mask info.source
    data := info.mergeExpr old.data port.mask port.data }

/-- One port more of the leading run: it joins the port with its address, or comes after the others. -/
def groupPort (grouped : Dict (List Bit) WritePort) (port : WritePort) : Dict (List Bit) WritePort :=
  match port.key with
  | none => grouped
  | some key => grouped.upsert info.joinPorts key port

/-- The ports, with the leading run of those at constant addresses grouped by address. -/
def groupPorts (ports : List WritePort) : List WritePort :=
  ((ports.takeWhile fun port => port.key.isSome).foldl info.groupPort Dict.empty).values ++
    ports.dropWhile fun port => port.key.isSome

/-- Two constant addresses that differ: no comparison is built for their ports. -/
def skips (key earlier : Option (List Bit)) : Bool := key.isSome && earlier.isSome && key ≠ earlier

/-- The word at the address of a port after the ports before it. -/
def accumulated (earlier : List WritePort) (port : WritePort) : Expr :=
  earlier.foldl (fun accumulated other =>
    if skips port.key other.key then accumulated
    else
      .mux info.width
        (.binary 1 .bitAnd (.binary 1 .equal other.address port.address info.source)
          (.unary 1 .reduceBool other.mask info.source) info.source)
        (info.mergeExpr accumulated other.mask other.data) accumulated info.source)
    (.memoryRead info.width info.loomName port.address info.source)

/-- The write of a whole word. -/
def completeWrite (earlier : List WritePort) (port : WritePort) : MemoryWrite where
  port := earlier.length
  enable := .unary 1 .reduceBool port.mask info.source
  address := port.address
  data := info.mergeExpr (info.accumulated earlier port) port.mask port.data
  source := info.source

/-- The writes of whole words, for some ports that come after others. -/
def completeWrites : List WritePort → List WritePort → List MemoryWrite
  | _, [] => []
  | earlier, port :: rest => info.completeWrite earlier port :: completeWrites (earlier ++ [port]) rest

/-- The image as one number. -/
def packedInit : Nat :=
  match info.initExpr with
  | .literal _ value _ => value
  | .partialLiteral _ choice _ => choice.implementationValue
  | _ => 0

/-- The choice made for an image with unknown bits. -/
def initRefinement : Option PartialValue :=
  match info.initExpr with
  | .partialLiteral _ choice _ => some choice
  | _ => none

/-- The declaration of a memory with write ports. -/
def memory (ports : List WritePort) : Memory where
  name := info.loomName
  addressWidth := info.addressWidth
  dataWidth := info.width
  init := (List.range info.size).map fun address => (info.packedInit >>> (address * info.width)) &&& (2 ^ info.width - 1)
  initRefinement := info.initRefinement
  writes := info.completeWrites [] (info.groupPorts ports)
  source := info.source

end MemoryInfo

/-- The declaration of a memory with write ports, over the translation of vectors. -/
def writableMemory (expr : List Bit → SourceLocation → M Expr) (info : MemoryInfo) : M Memory := do
  let ports ← (List.range info.writePorts).mapM (writePort expr info)
  pure (info.memory ports)

end LoomImport
