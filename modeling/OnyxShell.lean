import OnyxShell.Commands.Argv
import OnyxShell.Commands.Copy
import OnyxShell.Commands.File
import OnyxShell.Commands.JobControl
import OnyxShell.Commands.PathSearch
import OnyxShell.Commands.Run
import OnyxShell.Commands.ScriptLines
import OnyxShell.Commands.Source
import OnyxShell.Eval
import OnyxShell.Family
import OnyxShell.Features.Buffer
import OnyxShell.Features.Chronicle
import OnyxShell.Features.Env
import OnyxShell.Features.EnvMap
import OnyxShell.Features.EnvTable
import OnyxShell.Features.Envp
import OnyxShell.Features.Expansion
import OnyxShell.Features.History
import OnyxShell.Features.JobTable
import OnyxShell.Features.Jobs
import OnyxShell.Features.Recall
import OnyxShell.Features.Service.Complete
import OnyxShell.Features.Service.Glob
import OnyxShell.Features.Service.GlobBuffers
import OnyxShell.Features.Service.GlobFiles
import OnyxShell.Features.Service.GlobIndex
import OnyxShell.Features.Service.GlobLanguage
import OnyxShell.FileSystem
import OnyxShell.Io
import OnyxShell.Lib.AssocList
import OnyxShell.Lib.CommonPrefix
import OnyxShell.Lib.FdTable
import OnyxShell.Lib.LexicalPath
import OnyxShell.Lib.LiveRows
import OnyxShell.Lib.Loop
import OnyxShell.Lib.Numeral
import OnyxShell.Lib.Prog
import OnyxShell.Lib.Rewrite
import OnyxShell.Lib.RingBuffer
import OnyxShell.Lib.Runs
import OnyxShell.Lib.Scan
import OnyxShell.Lib.StringTable
import OnyxShell.Lib.TerminalRow
import OnyxShell.Lib.TextBuffer
import OnyxShell.Lib.Total
import OnyxShell.Lib.Tracks
import OnyxShell.Lib.Wildcard
import OnyxShell.Lib.Zipper
import OnyxShell.Numbers
import OnyxShell.Path
import OnyxShell.PathBuf
import OnyxShell.Pipeline.Exec
import OnyxShell.Pipeline.Parse
import OnyxShell.Pipeline.Redirect
import OnyxShell.Pipeline.Render
import OnyxShell.Pipeline.Spans
import OnyxShell.Pipeline.Spelling
import OnyxShell.Pipeline.Tidy
import OnyxShell.Pipeline.Tokens
import OnyxShell.Pipeline.Wiring
import OnyxShell.Process.Conduct
import OnyxShell.Process.Console
import OnyxShell.Process.Disk
import OnyxShell.Process.Eval
import OnyxShell.Process.Exec
import OnyxShell.Process.File
import OnyxShell.Process.Io
import OnyxShell.Process.Jobs
import OnyxShell.Process.Kernel
import OnyxShell.Process.Keyboard
import OnyxShell.Process.Main
import OnyxShell.Process.Nav
import OnyxShell.Process.Pipeline
import OnyxShell.Process.Sys
import OnyxShell.Proofs.Children
import OnyxShell.Proofs.Commands.Argv
import OnyxShell.Proofs.Commands.Copy
import OnyxShell.Proofs.Commands.File
import OnyxShell.Proofs.Commands.PathSearch
import OnyxShell.Proofs.Commands.Run
import OnyxShell.Proofs.Commands.Script
import OnyxShell.Proofs.Commands.ScriptLines
import OnyxShell.Proofs.Commands.Source
import OnyxShell.Proofs.Eval
import OnyxShell.Proofs.Family
import OnyxShell.Proofs.Features.Chronicle
import OnyxShell.Proofs.Features.Complete
import OnyxShell.Proofs.Features.Completion
import OnyxShell.Proofs.Features.EnvMap
import OnyxShell.Proofs.Features.EnvTable
import OnyxShell.Proofs.Features.Envp
import OnyxShell.Proofs.Features.Expansion
import OnyxShell.Proofs.Features.Glob
import OnyxShell.Proofs.Features.GlobBuffers
import OnyxShell.Proofs.Features.GlobFiles
import OnyxShell.Proofs.Features.GlobIndex
import OnyxShell.Proofs.Features.GlobLiteral
import OnyxShell.Proofs.Features.History
import OnyxShell.Proofs.Features.JobTable
import OnyxShell.Proofs.Features.Jobs
import OnyxShell.Proofs.Features.Recall
import OnyxShell.Proofs.Features.Tilde
import OnyxShell.Proofs.Numbers
import OnyxShell.Proofs.Path
import OnyxShell.Proofs.PathBuf
import OnyxShell.Proofs.PathNormal
import OnyxShell.Proofs.Pipeline.Arguments
import OnyxShell.Proofs.Pipeline.Children
import OnyxShell.Proofs.Pipeline.EndOfFile
import OnyxShell.Proofs.Pipeline.Exec
import OnyxShell.Proofs.Pipeline.Operators
import OnyxShell.Proofs.Pipeline.Parse
import OnyxShell.Proofs.Pipeline.Plain
import OnyxShell.Proofs.Pipeline.Redirect
import OnyxShell.Proofs.Pipeline.RoundTrip
import OnyxShell.Proofs.Pipeline.Separation
import OnyxShell.Proofs.Pipeline.Spans
import OnyxShell.Proofs.Pipeline.Spelling
import OnyxShell.Proofs.Pipeline.Stretch
import OnyxShell.Proofs.Pipeline.Tidy
import OnyxShell.Proofs.Pipeline.Wiring
import OnyxShell.Proofs.Process.Apart
import OnyxShell.Proofs.Process.Console
import OnyxShell.Proofs.Process.Disk
import OnyxShell.Proofs.Process.EnvText
import OnyxShell.Proofs.Process.Eval
import OnyxShell.Proofs.Process.Exec
import OnyxShell.Proofs.Process.File
import OnyxShell.Proofs.Process.Io
import OnyxShell.Proofs.Process.Jobs
import OnyxShell.Proofs.Process.Kernel
import OnyxShell.Proofs.Process.Keyboard
import OnyxShell.Proofs.Process.Main
import OnyxShell.Proofs.Process.Nav
import OnyxShell.Proofs.Process.Output
import OnyxShell.Proofs.Process.Pipeline
import OnyxShell.Proofs.Process.Plan
import OnyxShell.Proofs.Process.Prompt
import OnyxShell.Proofs.Process.Quiet
import OnyxShell.Proofs.Process.Refinement
import OnyxShell.Proofs.Process.Runs
import OnyxShell.Proofs.Repl.Interrupt
import OnyxShell.Proofs.Repl.OneEntry
import OnyxShell.Proofs.Repl.References
import OnyxShell.Proofs.Repl.Screen
import OnyxShell.Proofs.Repl.Sequence
import OnyxShell.Proofs.Repl.Stream
import OnyxShell.Proofs.Repl.Text
import OnyxShell.Proofs.Resolve
import OnyxShell.Proofs.Startup
import OnyxShell.Proofs.Words
import OnyxShell.Repl.Editor
import OnyxShell.Repl.Raw
import OnyxShell.Repl.Screen
import OnyxShell.Repl.Sequence
import OnyxShell.Repl.Stream
import OnyxShell.Repl.Text
import OnyxShell.Startup
import OnyxShell.Syscalls
import OnyxShell.Words
