import CompileDriver.Host.World
import CompileDriver.Invocation
import CompileDriver.ObjectPath
import CompileDriver.OptionsFile
import CompileDriver.CompilationDatabase
import CompileDriver.Plan
import CompileDriver.Queue
import CompileDriver.Include
import CompileDriver.Toml.Quoted
import CompileDriver.Toml.Value
import CompileDriver.Toml.Document
import CompileDriver.Glob.Pattern
import CompileDriver.Glob.Walk
import CompileDriver.Sources
import CompileDriver.Request.Basic
import CompileDriver.Request.Spec
import CompileDriver.Toolchain.Config
import CompileDriver.Script.Statement
import CompileDriver.Script.Shell
import CompileDriver.Script.Machine
import CompileDriver.CommandLine.Arguments
import CompileDriver.Executable
import CompileDriver.CommandLine.Run
import CompileDriver.Main
import CompileDriver.Proofs.OptionsFile.Gcc
import CompileDriver.Proofs.OptionsFile.Windows
import CompileDriver.Proofs.Plan.CommandFile
import CompileDriver.Proofs.Include.OnePass
import CompileDriver.Proofs.ObjectPath.Collision
import CompileDriver.Proofs.Plan.Output
import CompileDriver.Proofs.FileSystem.Places
import CompileDriver.Proofs.Plan.Success
import CompileDriver.Proofs.Plan.PathLimit
import CompileDriver.Proofs.Plan.Contents
import CompileDriver.Proofs.FileSystem.Frame
import CompileDriver.Proofs.FileSystem.Making
import CompileDriver.Proofs.Plan.Footprint
import CompileDriver.Proofs.Plan.Independence
import CompileDriver.Proofs.Host.Answers
import CompileDriver.Proofs.Host.Schedules
import CompileDriver.Proofs.Queue.Outcomes
import CompileDriver.Proofs.Queue.Batch
import CompileDriver.Proofs.Queue.Schedules
import CompileDriver.Proofs.Glob.Walk
import CompileDriver.Proofs.Sources.Expansion
import CompileDriver.Proofs.FileSystem.Contents
import CompileDriver.Proofs.Request.Spec
import CompileDriver.Proofs.Path.Under
import CompileDriver.Proofs.FileSystem.Subtree
import CompileDriver.Proofs.Glob.Pattern
import CompileDriver.Proofs.Glob.Joined
import CompileDriver.Proofs.Glob.Counterparts
import CompileDriver.Proofs.Sources.Relocation
import CompileDriver.Proofs.CommandLine.Runs
import CompileDriver.Proofs.CommandLine.Compile
import CompileDriver.Proofs.ObjectPath.Mirror
import CompileDriver.Proofs.Json.Reader
import CompileDriver.Proofs.Host.Steps
import CompileDriver.Proofs.Queue.Database
import CompileDriver.Proofs.Path.Parents
import CompileDriver.Proofs.Host.Confined
import CompileDriver.Proofs.Sources.Absolute
import CompileDriver.Proofs.Toolchain.Arguments
import CompileDriver.Proofs.Request.Anywhere
import CompileDriver.Proofs.Host.Interference
import CompileDriver.Proofs.FileSystem.Interference
import CompileDriver.Proofs.FileSystem.Writing
import CompileDriver.Proofs.OptionsFile.Location
import CompileDriver.Proofs.Plan.Alongside
import CompileDriver.Proofs.Plan.Concurrent
import CompileDriver.Proofs.Text.Cutting
import CompileDriver.Proofs.Include.Lines
import CompileDriver.Proofs.Include.Grammar
import CompileDriver.Proofs.Include.Search
import CompileDriver.Proofs.Sources.Contributions
import CompileDriver.Proofs.FileSystem.Racing
