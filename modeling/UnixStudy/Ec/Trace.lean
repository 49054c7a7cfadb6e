import UnixStudy.Foundations.CStrings
import UnixStudy.Foundations.Frees
import UnixStudy.Foundations.LinkedList
import UnixStudy.Foundations.Allocations
import UnixStudy.Smi.Message

/-!
# The error trace

A function that finds an error calls `ec_push`, and so does its caller, and the caller of that. Each
call adds a node in front of a list, with a text that says where it was made. `ec_print` shows the
list, and `ec_reinit` frees it. There may be no memory left when an error is found: then the text is
written to an array, or, once this is taken, to where the literal `"?"` is; and there is one node
for such a case, which is used just once. If it is on the list, the error is dropped.

All that these functions do to the list they do with a mutex locked, so a section is a step.
`atexit` is called after the section of the first call of `ec_push`; if it fails, sections of
`ec_push` and of `ec_print` follow.

## Main definitions

* `Error`, `Error.context` : the arguments of `ec_push`, and the text.
* `Node`, `State` : `struct ec_node`, and memory with the static variables.
* `ec_push`, `traverse`, `ec_print`, `ec_reinit` : the sections.
* `step` : a section, where the label says what `calloc` returns.

## References

* `src/common/ec.c`, lines 51–58, 65–97, 110–129 and 131–147, and `src/common/ec.h`.
-/

namespace UnixStudy.Ec

open Smi (Bytes decimal)

/-! ### Errors -/

/-- `EC_ERRTYPE`. -/
inductive ErrType
  | EC_ERRNO
  | EC_EAI
  | EC_GETDATE
  | EC_NONE
  deriving DecidableEq, Repr

/-- The arguments of `ec_push`. The last string may be `NULL`. -/
structure Error where
  fcn : CString
  file : CString
  line : ℤ
  str : Option CString
  errno_arg : ℤ
  type : ErrType

/-- `SEP1`. -/
def SEP1 : Bytes := [32, 91]

/-- `SEP2`. -/
def SEP2 : Bytes := [58]

/-- `SEP3`. -/
def SEP3 : Bytes := [93, 32]

namespace Error

variable (e : Error)

/-- The characters of `str`, of which there are none if it is `NULL`. -/
def strChars : Bytes := (e.str.map CString.chars).getD []

/-- The text that `ec_push` formats. -/
def context : Bytes :=
  e.fcn.chars ++ SEP1 ++ e.file.chars ++ SEP2 ++ decimal e.line ++ SEP3 ++ e.strChars

/-- `len`, where six characters are meant for the number of the line. -/
def len : ℕ :=
  e.fcn.chars.length + SEP1.length + e.file.chars.length + SEP2.length + 6 + SEP3.length +
    e.strChars.length + 1

end Error

/-! ### Memory -/

/-- `struct ec_node`. -/
structure Node where
  ec_next : Option ℕ
  ec_errno : ℤ
  ec_type : ErrType
  ec_context : Option ℕ
  deriving DecidableEq

/-- What a static node holds in the beginning. -/
def Node.zero : Node := ⟨none, 0, .EC_ERRNO, none⟩

/-- What a block from `calloc` is used for. -/
inductive Block
  | node (n : Node)
  | text (t : Bytes)

/-- The node in a block. -/
def Block.node? : Block → Option Node
  | node n => some n
  | text _ => none

/-- The string in a block. -/
def Block.text? : Block → Option Bytes
  | node _ => none
  | text t => some t

/-- The address of `ec_node_emergency`. -/
abbrev emergencyNode : ℕ := 0

/-- The address of `ec_s_emergency`. -/
abbrev emergencyText : ℕ := 1

/-- The address of the literal `"?"`. -/
abbrev question : ℕ := 2

/-- Memory from `calloc`, with the calls of it and of `free`; the static variables; and the literal,
and whether it was written to. Of an array of characters this has the string that is in it. -/
structure State where
  mem : Allocations Block
  calls : List MemoryCall
  ec_head : Option ℕ
  ec_node_emergency : Node
  ec_s_emergency : Bytes
  attexit_called : Bool
  literal : Bytes
  literalWritten : Bool

/-- The beginning. -/
def start : State := ⟨.empty, [], none, .zero, [], false, [63], false⟩

namespace State

variable (s : State)

/-- The node at an address. -/
def nodeAt (a : ℕ) : Option Node :=
  if a = emergencyNode then some s.ec_node_emergency else (s.mem.cell a).bind Block.node?

/-- The string at an address. -/
def textAt (a : ℕ) : Option Bytes :=
  if a = emergencyText then some s.ec_s_emergency
  else if a = question then some s.literal
  else (s.mem.cell a).bind Block.text?

/-- `calloc` returns an address, where no static variable is, and the block is written to. -/
def calloc (a : ℕ) (b : Block) : Option State :=
  if question < a then
    (s.mem.malloc a b).map fun mem => { s with mem := mem, calls := s.calls ++ [.malloc a] }
  else none

/-- `free`, which is to be called with what is in use. -/
def free (p : Option ℕ) : State :=
  { s with
    mem := (p.bind s.mem.free).getD s.mem
    calls := s.calls ++ [.free p] }

/-! ### `ec_push` -/

/-- The text of a node is written to a block, to the array, or to the literal. -/
def setContext (e : Error) : Option ℕ → Option (ℕ × State)
  | some a => (s.calloc a (.text (snprintf e.len e.context).2)).map (a, ·)
  | none =>
    if s.ec_s_emergency = [] then
      some (emergencyText, { s with ec_s_emergency := (snprintf 100 e.context).2 })
    else
      some (question, { s with literal := (snprintf 100 e.context).2, literalWritten := true })

/-- A node is added: a block, or `ec_node_emergency` if it has no context yet. -/
def addNode (e : Error) (context : ℕ) : Option ℕ → Option State
  | some b =>
    (s.calloc b (.node ⟨s.ec_head, e.errno_arg, e.type, some context⟩)).map
      fun s' => { s' with ec_head := some b }
  | none =>
    if s.ec_node_emergency.ec_context = none then
      some
        { s with
          ec_node_emergency := ⟨s.ec_head, e.errno_arg, e.type, some context⟩
          ec_head := some emergencyNode }
    else some s

end State

/-- A call of `ec_push`, with what `calloc` returns for the text and for the node. -/
structure Push where
  error : Error
  text : Option ℕ
  node : Option ℕ

variable (s : State)

/-- The section of `ec_push`. -/
def ec_push (p : Push) : Option State := do
  let (context, s) ← s.setContext p.error p.text
  let s ← s.addNode p.error context p.node
  some { s with attexit_called := true }

/-! ### `ec_print` -/

/-- The nodes from one on, with their addresses, where the fuel bounds their number. -/
def traverse : ℕ → Option ℕ → Option (List (ℕ × Node))
  | 0, _ => none
  | _ + 1, none => some []
  | fuel + 1, some e => do
    let node ← s.nodeAt e
    let nodes ← traverse fuel node.ec_next
    some ((e, node) :: nodes)

/-- As many nodes as there may be: one for each call of `calloc`, `ec_node_emergency`, and the end
of the list. -/
def State.fuel : ℕ := s.calls.length + 2

/-- `"\t*** Trace may be incomplete ***"`. -/
def incomplete : Bytes :=
  [9, 42, 42, 42, 32, 84, 114, 97, 99, 101, 32, 109, 97, 121, 32, 98, 101, 32, 105, 110, 99, 111,
    109, 112, 108, 101, 116, 101, 32, 42, 42, 42]

/-- `"ERROR:"`. -/
def ERROR : Bytes := [69, 82, 82, 79, 82, 58]

/-- The text for a node, in front of what is written to `buf2`. -/
def levelText (level : ℕ) (buf : Bytes) : Bytes :=
  (if level = 0 then ERROR else []) ++ [9] ++ decimal level ++ [58, 32] ++ buf

/-- The lines for some nodes, where the library function `syserrmsgtype` writes to `buf`, which has
200 characters, for a context, a number and a type. The number is shown for the last node only. -/
def lines (syserrmsgtype : ℕ → Bytes → ℤ → ErrType → Bytes) :
    ℕ → List (ℕ × Node) → Option (List Bytes)
  | _, [] => some []
  | level, (a, e) :: nodes => do
    let context ← e.ec_context.bind s.textAt
    let buf := syserrmsgtype 200 context (if e.ec_next = none then e.ec_errno else 0) e.ec_type
    let rest ← lines syserrmsgtype (level + 1) nodes
    some ((if a = emergencyNode then [incomplete] else []) ++
      (snprintf 225 (levelText level buf)).2 :: rest)

/-- The lines that `ec_print` writes. -/
def ec_print (syserrmsgtype : ℕ → Bytes → ℤ → ErrType → Bytes) : Option (List Bytes) := do
  let nodes ← traverse s s.fuel s.ec_head
  lines s syserrmsgtype 0 nodes

/-! ### `ec_reinit` -/

/-- What is done for one node: its text is freed, and it is freed itself, unless they are static. -/
def release (s : State) (e : ℕ) (node : Node) : State :=
  let s := if node.ec_context ≠ some emergencyText then s.free node.ec_context else s
  if e ≠ emergencyNode then s.free (some e) else s

/-- The loop of `ec_reinit`. -/
def releaseAll : ℕ → State → Option ℕ → Option State
  | 0, _, _ => none
  | _ + 1, s, none => some s
  | fuel + 1, s, some e => do
    let node ← s.nodeAt e
    releaseAll fuel (release s e node) node.ec_next

/-- The section of `ec_reinit`. -/
def ec_reinit : Option State := do
  let s ← releaseAll s.fuel s s.ec_head
  some { s with ec_head := none, ec_node_emergency := .zero, ec_s_emergency := [] }

/-! ### Runs -/

/-- A section, by any thread. -/
inductive Label
  | push (p : Push)
  | print
  | reinit

/-- A step. Nothing changes when the trace is shown. -/
def step (s : State) : Label → Option State
  | .push p => ec_push s p
  | .print => (traverse s s.fuel s.ec_head).map fun _ => s
  | .reinit => ec_reinit s

/-- A step of any thread. -/
abbrev Step (s : State) (l : Label) (s' : State) : Prop := step s l = some s'

end UnixStudy.Ec
