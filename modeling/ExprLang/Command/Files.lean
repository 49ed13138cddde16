import ExprLang.Command.Path

namespace ExprLang.Command

inductive FileError
  | missing
  | isDirectory
  | notDirectory
  | nameTooLong
  | other (reason : String)
  deriving DecidableEq

def FileError.message : FileError → String
  | .missing => "No such file or directory"
  | .isDirectory => "Is a directory"
  | .notDirectory => "Not a directory"
  | .nameTooLong => "File name too long"
  | .other reason => reason

-- Why a file cannot be read.
inductive ReadError
  | file (e : FileError)
  | undecodable (f : DecodeFault)
  | unnameable (f : EncodeFault)
  | nullByte
  deriving DecidableEq

namespace Path

-- Surrogates that stand for a byte that is not part of any text.
def isEscaped (c : CodePoint) : Bool :=
  0xDC80 ≤ c.val && c.val ≤ 0xDCFF

-- The first surrogates in a name, which starts at index `i`, that do not stand for bytes.
def unnameableFrom (i : Nat) : Text → Option EncodeFault
  | [] => none
  | c :: t =>
    if c.isSurrogate && !isEscaped c then
      some ⟨c, i, i + (t.takeWhile (·.isSurrogate)).length⟩
    else
      unnameableFrom (i + 1) t

-- The bytes by which a file is found.
def encodeName (t : Text) : Bytes :=
  t.flatMap fun c => if isEscaped c then [.ofNat (c.val % 0x100)] else c.encode

def maxPart : Nat := 255

def maxPath : Nat := 4096

end Path

-- Files and directories, each with the parts of its path from the root, and the working directory.
structure Files where
  cwd : List Bytes
  files : List (List Bytes × Bytes)
  directories : List (List Bytes)

namespace Files

inductive Found
  | file (contents : Bytes)
  | directory
  deriving DecidableEq

-- What a path leads to. Everything is in a directory, which need not be listed.
def find? (fs : Files) (path : List Bytes) : Option Found :=
  match fs.files.find? (·.fst = path) with
  | some (_, contents) => some (.file contents)
  | none =>
    if path.isPrefixOf fs.cwd
      || fs.directories.any (path.isPrefixOf ·)
      || fs.files.any (path.isPrefixOf ·.fst)
    then some .directory else none

-- Follows the parts of a path from the directory `dir`.
def walk (fs : Files) (dir : List Bytes) : List Bytes → Except FileError Found
  | [] => .ok .directory
  | part :: rest =>
    if part.length > Path.maxPart then .error .nameTooLong
    else if part = Path.encodeName Path.above then fs.walk dir.dropLast rest
    else
      match fs.find? (dir ++ [part]) with
      | none => .error .missing
      | some .directory => fs.walk (dir ++ [part]) rest
      | some (.file contents) => if rest.isEmpty then .ok (.file contents) else .error .notDirectory

def read (fs : Files) (name : Text) : Except ReadError Bytes :=
  let path := Path.ofText name
  match Path.unnameableFrom 0 path.toText with
  | some fault => .error (.unnameable fault)
  | none =>
    if name.contains 0 then .error .nullByte
    else if (Path.encodeName path.toText).length ≥ Path.maxPath then .error (.file .nameTooLong)
    else
      match fs.walk (if path.absolute then [] else fs.cwd) (path.parts.map Path.encodeName) with
      | .error e => .error (.file e)
      | .ok .directory => .error (.file .isDirectory)
      | .ok (.file contents) => .ok contents

end Files

-- Line ends are a carriage return, a newline, or both in this order; all are read as newlines.
def readLines : Text → Text
  | [] => []
  | 0x0D :: 0x0A :: t => 0x0A :: readLines t
  | 0x0D :: t => 0x0A :: readLines t
  | c :: t => c :: readLines t

-- The text of a file with the given bytes.
def textOfFile (bytes : Bytes) : Except ReadError Text :=
  match Utf8.decode .refused bytes with
  | .error f => .error (.undecodable f)
  | .ok t => .ok (readLines t)

end ExprLang.Command
