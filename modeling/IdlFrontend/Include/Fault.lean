/-!
# Why files cannot be read

The causes that are told apart when a file is read as text, and their wording.
-/

namespace IdlFrontend

/-- Why a file cannot be read as text. -/
inductive ReadFault where
  | notFound
  | isDirectory
  | notDirectory
  | nameTooLong
  /-- The name has a character in it that ends names. -/
  | nulInName
  /-- The contents are not encoded as UTF-8. -/
  | notText
  /-- Another cause, with the number that the system gives it. -/
  | other (description : String) (code : Nat)
deriving DecidableEq, Repr

/-- The cause with the number that the system gives it. -/
def ReadFault.ofCode (code : Nat) (description : String) : ReadFault :=
  match code with
  | 2 => notFound
  | 20 => notDirectory
  | 21 => isDirectory
  | 36 => nameTooLong
  | _ => other description code

/-- The wording of a cause. -/
def ReadFault.message : ReadFault → String
  | notFound => "No such file or directory (os error 2)"
  | isDirectory => "Is a directory (os error 21)"
  | notDirectory => "Not a directory (os error 20)"
  | nameTooLong => "File name too long (os error 36)"
  | nulInName => "file name contained an unexpected NUL byte"
  | notText => "stream did not contain valid UTF-8"
  | other description code => s!"{description} (os error {code})"

end IdlFrontend
