import UnixStudy.Foundations.Descriptors
import UnixStudy.Foundations.Processes
import UnixStudy.Foundations.Reader
import UnixStudy.Foundations.Redirect
import UnixStudy.Foundations.SlotTable
import UnixStudy.Foundations.Runs
import UnixStudy.Foundations.Fifos
import UnixStudy.Foundations.Words
import UnixStudy.Foundations.ScanLoop
import UnixStudy.Foundations.Allocations
import UnixStudy.Foundations.Frees
import UnixStudy.Foundations.LinkedList
import UnixStudy.Foundations.Stacks
import UnixStudy.Foundations.CStrings
import UnixStudy.Shell.Lexer
import UnixStudy.Shell.Layout
import UnixStudy.Shell.Machine
import UnixStudy.Shell.Invoke
import UnixStudy.Shell.Command
import UnixStudy.Shell.Reading
import UnixStudy.Shell.AllOrNothing
import UnixStudy.Shell.Running
import UnixStudy.Shell.Line
import UnixStudy.Shell.Pipeline
import UnixStudy.Shell.Rejection
import UnixStudy.Shell.Grammar
import UnixStudy.Shell.Plumbing
import UnixStudy.Shell.Redirection
import UnixStudy.Shell.Leak
import UnixStudy.Shell.Wiring
import UnixStudy.Shell.Session
import UnixStudy.Smi.Message
import UnixStudy.Smi.Server
import UnixStudy.Smi.Routing
import UnixStudy.Smi.Reads
import UnixStudy.Smi.TwoRuns
import UnixStudy.Smi.Release
import UnixStudy.Smi.Closing
import UnixStudy.Shell.ProperWord
import UnixStudy.Shell.Turns
import UnixStudy.Shell.StartShell
import UnixStudy.Shell.EndOfInput
import UnixStudy.Shell.Stream
import UnixStudy.Shell.Progress
import UnixStudy.Shell.Newline
import UnixStudy.Shell.Arguments
import UnixStudy.Shell.Refusal
import UnixStudy.Cl.Getargs
import UnixStudy.Cl.Assignment
import UnixStudy.Cl.Lines
import UnixStudy.Cl.Framing
import UnixStudy.Cl.OneLoop
import UnixStudy.FifoApp.Programs
import UnixStudy.Smi.UpperLoop
import UnixStudy.FifoApp.EndToEnd
import UnixStudy.Smi.Clients
import UnixStudy.Smi.Names
import UnixStudy.Smi.Ownership
import UnixStudy.Smi.Entries
import UnixStudy.Smi.Service
import UnixStudy.Smi.Departures
import UnixStudy.Smi.Session
import UnixStudy.Smi.EndToEnd
import UnixStudy.Mut.Queue
import UnixStudy.Mut.Program
import UnixStudy.Mut.Atomic
import UnixStudy.Mut.Cancel
import UnixStudy.Mut.Ending
import UnixStudy.Logf.Log
import UnixStudy.Logf.Trace
import UnixStudy.Fsort.Copy
import UnixStudy.Lock.Path
import UnixStudy.Ec.Trace
import UnixStudy.Ec.Kept
import UnixStudy.Ec.Release
import UnixStudy.Ec.Memory
import UnixStudy.Ec.Print
import UnixStudy.MacroStr.Compile
import UnixStudy.MacroStr.Table
import UnixStudy.Foundations.Pipes
import UnixStudy.Fsort.Coprocess
import UnixStudy.Fsort.Ends
import UnixStudy.Fsort.Completion
import UnixStudy.Foundations.Mutex
import UnixStudy.Ec.Threads
import UnixStudy.Ec.Sections
import UnixStudy.Ec.Interleaving
import UnixStudy.Socket.Basic
import UnixStudy.Socket.Exchange
