/-! # Failures

The ways in which a request to the operating system fails, and how a failure is told: as a chain,
what could not be done first, then why.
-/

namespace CompileDriver

/-! ## Errors of the operating system

The ways in which a request to the operating system fails, with their texts.
-/

inductive IoError where
  | notFound
  | permissionDenied
  | alreadyExists
  | notADirectory
  | isADirectory
  | nameTooLong
  | badExecutable
  /-- A file name contains a NUL character. -/
  | nulInName
  /-- A command to start contains a NUL character. -/
  | nulInCommand
  /-- A file that is read as text is not UTF-8. -/
  | notText
deriving DecidableEq, Repr

def IoError.message : IoError → String
  | notFound => "No such file or directory (os error 2)"
  | permissionDenied => "Permission denied (os error 13)"
  | alreadyExists => "File exists (os error 17)"
  | notADirectory => "Not a directory (os error 20)"
  | isADirectory => "Is a directory (os error 21)"
  | nameTooLong => "File name too long (os error 36)"
  | badExecutable => "Exec format error (os error 8)"
  | nulInName => "file name contained an unexpected NUL byte"
  | nulInCommand => "nul byte found in provided data"
  | notText => "stream did not contain valid UTF-8"

/-! ## Chains of causes

A failure is told as a chain: what could not be done first, then why. Each kind of failure has
its own type; all of them can be read as a chain.
-/

inductive Cause where
  | text (s : String)
  | io (e : IoError)
  /-- A document that is not TOML or does not have the expected form. -/
  | toml
deriving DecidableEq, Repr

def Cause.message : Cause → String
  | text s => s
  | io e => e.message
  | toml => "TOML parse error"

/-- An explanation, from what failed to its innermost cause. -/
abbrev Chain := List Cause

def Chain.message (c : Chain) : String := String.intercalate ": " (c.map Cause.message)

end CompileDriver
