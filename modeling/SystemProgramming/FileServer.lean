import SystemProgramming.Strtok
import SystemProgramming.LineReader
import SystemProgramming.LockTable

/-!
# A request to the file server

A child server parses a command line, runs one handler, and writes its replies to
the FIFO of the client. What the system calls of a request answer is a parameter,
and so is the value `cmd_readF` finds in its uninitialised `status`; writes to
the FIFO succeed. A handler that writes outside its buffers, or reads through a
null pointer, has no result.
-/
namespace SystemProgramming.FileServer
open SystemProgramming.Strtok SystemProgramming.LineReader SystemProgramming.LockTable

inductive RespStatus where
  | ok
  | error
  | cont
  | approve
  | connect
  | disconnect
  deriving DecidableEq, Repr

/-- A response header and the `data_size` bytes behind it. -/
structure Message where
  stat : RespStatus
  body : Text
  deriving DecidableEq, Repr

/-- What `read_command_line` leaves in the buffer `cmd` of the client. -/
structure CommandLine where
  text : Text
  ne_nil : text ≠ []
  length_le : text.length ≤ 63
  nul_free : '\x00' ∉ text

inductive Command where
  | quit
  | killServer
  | help
  | list
  | readF
  | writeT
  | upload
  | download
  | archServer
  deriving DecidableEq, Repr

def Command.name : Command → Text
  | .quit => "quit".toList
  | .killServer => "killServer".toList
  | .help => "help".toList
  | .list => "list".toList
  | .readF => "readF".toList
  | .writeT => "writeT".toList
  | .upload => "upload".toList
  | .download => "download".toList
  | .archServer => "archServer".toList

def Command.all : List Command :=
  [.quit, .killServer, .help, .list, .readF, .writeT, .upload, .download, .archServer]

/-- The chain of `strcmp` calls. -/
def commandOf (cmd : Text) : Option Command := Command.all.find? fun c => c.name = cmd

def blank (c : Char) : Bool := c = ' '

/-- The words that `cmd_argv` points to, and what `cmd` holds once `strtok` has
ended the first word by a NUL. -/
structure Parsed where
  cmd : Text
  words : List Text

def parseCommand (cmd : Text) : Parsed where
  cmd := match tokens blank cmd with
    | [] => cmd
    | word :: _ => cmd.takeWhile blank ++ word
  words := tokens blank cmd

/-- The slots of `cmd_argv`. -/
def maxWords : ℕ := 32

def Parsed.argc (p : Parsed) : ℕ := max 1 p.words.length

def longMax : ℤ := 2 ^ 63 - 1

def isSpace (c : Char) : Bool :=
  c = ' ' || c = '\t' || c = '\n' || c = '\x0b' || c = '\x0c' || c = '\r'

def decimal (digits : Text) : ℤ :=
  digits.foldl (fun n c => 10 * n + (c.toNat - '0'.toNat : ℕ)) 0

/-- `strtol` with base ten: the value, the text at `endptr`, and whether it sets
`errno`. -/
def strtol (s : Text) : ℤ × Text × Bool :=
  let body := s.dropWhile isSpace
  let unsigned := if body.head? = some '-' ∨ body.head? = some '+' then body.tail else body
  let digits := unsigned.takeWhile Char.isDigit
  let rest := unsigned.dropWhile Char.isDigit
  let value := if body.head? = some '-' then -decimal digits else decimal digits
  if digits = [] then (0, s, false)
  else if longMax < value then (longMax, rest, true)
  else if value < -longMax - 1 then (-longMax - 1, rest, true)
  else (value, rest, false)

/-- The number, converted to `int`, and the status. -/
def strToInt (s : Text) : ℤ × ℤ :=
  match strtol s with
  | (value, rest, erange) =>
    let num := value.bmod (2 ^ 32)
    (num, if rest ≠ [] ∨ erange then -1 else num)

/-- What the system calls made for one request answer. `write i n` is the answer
to the `i`-th call that writes `n` bytes to a file, and `status` what `cmd_readF`
finds in its variable of that name. -/
structure Kernel where
  serverDir : Text
  cwd : Text
  names : List Text
  openRead : Text → Option File
  openWrite : Text → Bool → Option File
  createNew : Text → Bool
  truncate : Text → Bool
  createTar : Text → Bool
  fstat : Bool
  semInit : Bool
  enterRegion : Bool
  exitRegion : Bool
  write : ℕ → ℕ → Option ℕ
  realloc : ℕ → Bool
  forkExec : Bool
  status : ℤ

inductive LogEntry where
  | request (cmd : Text)
  | response (cmd : Option Text) (error : Bool)
  deriving DecidableEq, Repr

/-- The memory of a child server, and the messages it has sent for this request. -/
structure Session where
  errMsg : Text
  sdir : SafeDir
  sent : List Message
  log : List LogEntry

def Session.send (s : Session) (m : Message) : Session := { s with sent := s.sent ++ [m] }

/-- The bytes up to a NUL, and the NUL. -/
def cString (s : Text) : Text := s.takeWhile (· ≠ '\x00') ++ ['\x00']

/-- `open_dir_file` prints its path into a buffer of `BUFF_SIZE` bytes. -/
def dirPath (dir file : Text) : Text := (dir ++ '/' :: file).take (buffSize - 1)

/-- How `%s` prints a null pointer. -/
def nullText : Text := "(null)".toList

/-- `get_sfile`, and `add_sfile` when that finds nothing. -/
def findSfile (k : Kernel) (s : Session) (name : Text) : Option Session :=
  match getSfile s.sdir name with
  | some _ => some s
  | none => (addSfile s.sdir name k.semInit).map fun r => { s with sdir := r.1 }

def cmdQuit (s : Session) : ℤ × Session := (0, s.send ⟨.disconnect, []⟩)

def cmdKillServer (s : Session) : ℤ × Session := (0, s.send ⟨.disconnect, []⟩)

def argumentOfHelp (cmd : Text) : Text :=
  match commandOf cmd with
  | some .help => ("help <request>\n\texplain the given request if there is no specific request\n" ++
      "\tprovided then display the list of possible client requests").toList
  | some .list => "list\n\tdisplay the list of files in Servers directory".toList
  | some .quit => "quit\n\tSend write request to Server side log file and quits".toList
  | some .killServer => "killServer\n\tSends a kill request to the Server".toList
  | some .writeT => ("writeT <file> <line #> <string>\n" ++
      "\trequest to write the content of 'string' to the #th line the <file>, if\n" ++
      "\tthe line # is not given writes to the end of file. If the file does not\n" ++
      "\texists in Servers directory, creates and edits the file at the same time").toList
  | some .readF => ("readF <file> <line #>\n" ++
      "\tdisplay the # line of the <file>, if no line number is given, whole\n" ++
      "\tcontents of the file is requested (and displayed on the client side)").toList
  | some .upload => ("upload <file>\n" ++
      "\tuploads the file from the current working directory of client to the " ++
      "Servers directory").toList
  | some .download => ("download <file>\n" ++
      "\trequest to receive <file> from Servers directory to client side").toList
  | some .archServer => ("archServer <fileNAME>.tar\n" ++
      "\tUsing fork, exec and tar utilities create a child process that will collect all the " ++
      "files currently available on the the  Server side and store them in the " ++
      "<filename>.tar archive").toList
  | none => ("Available comments are:\n" ++
      "\thelp, list, readF, writeT, upload, download, quit, killServer,archServer").toList

def cmdHelp (s : Session) (cmd : Text) : ℤ × Session :=
  (0, s.send ⟨.ok, cString (argumentOfHelp cmd)⟩)

def unknownCommand : Text := "Unknown command".toList

/-- The entries of the directory, one a line. -/
def listing (names : List Text) : Text :=
  (names.filter fun name => name ≠ ['.'] ∧ name ≠ ['.', '.']).flatMap (· ++ ['\n'])

/-- The last newline becomes a NUL; without entries that falls before `data`. -/
def cmdList (k : Kernel) (s : Session) : Option (ℤ × Session) :=
  if (listing k.names).length < 512 ∧ listing k.names ≠ [] then
    some (0, s.send ⟨.ok, (listing k.names).dropLast ++ ['\x00']⟩)
  else none

def archiveName : Text := "Please provide a file name for the archive".toList
def archiveError : Text := "Error creating archive".toList
def archiveCreated : Text := "Archive created successfully".toList

def cmdArchServer (k : Kernel) (s : Session) (tarFile : Option Text) : Option (ℤ × Session) :=
  match tarFile with
  | none => some (-1, { s with errMsg := archiveName })
  | some file =>
    if 256 ≤ (k.serverDir ++ '/' :: file).length then none
    else if k.createTar (k.serverDir ++ '/' :: file) = false then some (-1, s)
    else if k.forkExec = false then some (-1, { s with errMsg := archiveError })
    else some (0, s.send ⟨.ok, cString archiveCreated⟩)

/-- The loop of `copy_file`; it ends at the end of the file and when `read` fails. -/
def copyLoop (k : Kernel) : List Text → ℕ → ℕ → Option ℕ
  | [], _, bytes => some bytes
  | piece :: pieces, i, bytes =>
    if k.write i piece.length = some piece.length then
      copyLoop k pieces (i + 1) (bytes + piece.length)
    else none

def copyFile (k : Kernel) (src : File) : Option ℕ :=
  if k.enterRegion = false then none
  else match copyLoop k src.pieces 0 0 with
    | none => none
    | some bytes => if k.exitRegion = false then none else some bytes

def errMsgLen : ℕ := 128

def approveBefore : Text := "The file ".toList
def approveAfter : Text :=
  " is already exist in the destination directory. Do you want to overwrite (yes/no)? ".toList

/-- The question `cmd_copy` asks before it overwrites a file. -/
def approveQuestion (file : Text) : Text := approveBefore ++ file ++ approveAfter

def bytesTransferred (bytes : ℕ) : Text := Nat.toDigits 10 bytes ++ " bytes transferred".toList

/-- `cmd_copy` once both files are open. -/
def copyOpened (k : Kernel) (s : Session) (src : File) (srcFile : Option Text) :
    Option (ℤ × Session) :=
  srcFile.map fun name =>
    match findSfile k s name with
    | none => (-1, s)
    | some s => match copyFile k src with
      | none => (-1, s)
      | some bytes => (0, s.send ⟨.ok, cString (bytesTransferred bytes)⟩)

/-- `overwrite` is the answer of the client, should it be asked. -/
def cmdCopy (k : Kernel) (s : Session) (overwrite : Bool) (srcDir : Text) (srcFile : Option Text)
    (destDir : Text) : Option (ℤ × Session) :=
  let file := srcFile.getD nullText
  match k.openRead (dirPath srcDir file) with
  | none => some (-1, s)
  | some src =>
    if k.createNew (dirPath destDir file) then copyOpened k s src srcFile
    else if errMsgLen ≤ (approveQuestion file).length then none
    else
      let s := { s with errMsg := approveQuestion file }
      let s := s.send ⟨.approve, cString s.errMsg⟩
      if overwrite = false then some (0, s)
      else if k.truncate (dirPath destDir file) = false then some (-1, s)
      else copyOpened k s src srcFile

/-- Send the line, or set the error message. -/
def readLine (k : Kernel) (s : Session) (f : File) (lineNo : ℕ) : Option (ℤ × Session) :=
  (seekLine f lineNo).bind fun
    | .error msg => some (-1, { s with errMsg := msg })
    | .ok (_, rest) => (readNextLine k.realloc f.readError rest).map fun
      | none => (-1, { s with errMsg := lineExceeded lineNo })
      | some line => (0, s.send ⟨.ok, cString line⟩)

/-- The loop of `cmd_readF`, which counts the bytes in an `int`; the flag tells
whether it has sent `RESP_OK`. -/
def sendPieces (size : ℕ) : List Text → ℤ → Session → Session × Bool
  | [], _, s => (s, false)
  | piece :: pieces, numRead, s =>
    if (numRead + piece.length).bmod (2 ^ 32) < size then
      sendPieces size pieces ((numRead + piece.length).bmod (2 ^ 32)) (s.send ⟨.cont, piece⟩)
    else (s.send ⟨.ok, piece⟩, true)

/-- A call of `read` that fails makes `data_size` larger than the buffer. -/
def readWhole (k : Kernel) (s : Session) (f : File) : Option (ℤ × Session) :=
  match sendPieces f.size f.pieces 0 s with
  | (s, true) => some (k.status, s)
  | (s, false) => if f.readError then none else some (k.status, s)

/-- The end of `cmd_readF`. -/
def leaveRegion (k : Kernel) (r : ℤ × Session) : ℤ × Session :=
  (if k.exitRegion then r.1 else -1, r.2)

def cmdReadF (k : Kernel) (s : Session) (srcFile : Text) (lineNo : ℤ) : Option (ℤ × Session) :=
  match k.openRead (dirPath k.serverDir srcFile) with
  | none => some (-1, s)
  | some f =>
    if k.fstat = false then some (-1, s)
    else match findSfile k s srcFile with
      | none => some (-1, s)
      | some s =>
        if k.enterRegion = false then some (-1, s)
        else (if 0 < lineNo then readLine k s f lineNo.toNat else readWhole k s f).map
          (leaveRegion k)

def bytesWritten (bytes : ℕ) (file : Text) : Text :=
  Nat.toDigits 10 bytes ++ " byte(s) written to file ".toList ++ file

/-- When the file cannot be written, `status` is set to `-1` and then to `0`. -/
def writeString (k : Kernel) (s : Session) (srcFile str : Text) : ℤ × Session :=
  match k.write 0 str.length with
  | none => (0, s)
  | some bytes => (0, s.send ⟨.ok, cString (bytesWritten bytes srcFile)⟩)

def cmdWriteT (k : Kernel) (s : Session) (srcFile str : Text) (lineNo : ℤ) :
    Option (ℤ × Session) :=
  match k.openWrite (dirPath k.serverDir srcFile) (decide (lineNo ≤ 0)) with
  | none => some (-1, s)
  | some f => match findSfile k s srcFile with
    | none => some (-1, s)
    | some s =>
      if 0 < lineNo then
        (seekLine f lineNo.toNat).map fun
          | .error msg => (-1, { s with errMsg := msg })
          | .ok _ => writeString k s srcFile str
      else some (writeString k s srcFile str)

def positiveLine : Text := "Please provide a positive integer for line #".toList

/-- Check a line number before it is used. -/
def withLine (s : Session) (arg : Text) (f : ℤ → Option (ℤ × Session)) : Option (ℤ × Session) :=
  if (strToInt arg).2 = -1 ∨ (strToInt arg).1 < 1 then some (-1, { s with errMsg := positiveLine })
  else f (strToInt arg).1

/-- The line number that `readF` and `writeT` go on with. -/
def acceptedLine (arg : Text) : Option ℤ :=
  if (strToInt arg).2 = -1 ∨ (strToInt arg).1 < 1 then none else some (strToInt arg).1

lemma eq_of_acceptedLine {arg : Text} {n : ℤ} (h : acceptedLine arg = some n) :
    (strToInt arg).1 = n := by
  unfold acceptedLine at h
  split_ifs at h
  exact Option.some.inj h

/-- `server_request` runs the handler on the accepted line, or reports an error. -/
lemma withLine_eq (s : Session) (arg : Text) (f : ℤ → Option (ℤ × Session)) :
    withLine s arg f = match acceptedLine arg with
      | none => some (-1, { s with errMsg := positiveLine })
      | some n => f n := by
  unfold withLine acceptedLine
  split_ifs <;> rfl

lemma withLine_cases {s : Session} {arg : Text} {f : ℤ → Option (ℤ × Session)} {r : ℤ × Session}
    (h : withLine s arg f = some r) :
    r = (-1, { s with errMsg := positiveLine }) ∨
      ∃ n, acceptedLine arg = some n ∧ f n = some r := by
  rw [withLine_eq] at h
  cases hline : acceptedLine arg with
  | none =>
    rw [hline] at h
    exact Or.inl (Option.some.inj h).symm
  | some n =>
    rw [hline] at h
    exact Or.inr ⟨n, rfl, h⟩

/-- Run the handler of a command on the words behind the command. -/
def handle (k : Kernel) (s : Session) (overwrite : Bool) (args : List Text) :
    Command → Option (ℤ × Session)
  | .quit => some (cmdQuit s)
  | .killServer => some (cmdKillServer s)
  | .help => some (match args with
    | [] => cmdHelp s [' ']
    | [arg] => match commandOf arg with
      | some c => cmdHelp s c.name
      | none => (-1, { s with errMsg := unknownCommand })
    | _ => (0, s))
  | .list => cmdList k s
  | .readF => match args with
    | [file] => cmdReadF k s file (-1)
    | [file, line] => withLine s line fun n => cmdReadF k s file n
    | _ => some (0, s)
  | .writeT => match args with
    | [file, str] => cmdWriteT k s file str (-1)
    | [file, line, str] => withLine s line fun n => cmdWriteT k s file str n
    | _ => some (0, s)
  | .upload => cmdCopy k s overwrite k.cwd args.head? k.serverDir
  | .download => cmdCopy k s overwrite k.serverDir args.head? k.cwd
  | .archServer => cmdArchServer k s args.head?

/-- What `server_request` does with the status of a handler. The log compares it
with `RESP_ERROR`, which is one. -/
def finish (p : Parsed) (status : ℤ) (s : Session) : Session :=
  let s := if status = -1 then s.send ⟨.error, cString s.errMsg⟩ else s
  { s with log := s.log ++ [.response p.words.head? (status = 1)] }

/-- One round of the loop of `server_request`. -/
def serverRequest (k : Kernel) (s : Session) (line : Text) (overwrite : Bool) :
    Option Session :=
  let p := parseCommand line
  let s := { s with sent := [], log := s.log ++ [LogEntry.request p.cmd] }
  if maxWords ≤ p.argc then none
  else match commandOf p.cmd with
    | none => some (finish p 0 s)
    | some c => (handle k s overwrite p.words.tail c).map fun r => finish p r.1 r.2

/-- What stands in the FIFO: headers, and the bytes of bodies. -/
inductive Cell where
  | header (stat : RespStatus) (dataSize : ℕ)
  | byte (c : Char)
  deriving DecidableEq, Repr

def Message.cells (m : Message) : List Cell := .header m.stat m.body.length :: m.body.map .byte

/-- `PIPE_BUF`; a longer write may reach the FIFO in pieces. -/
def pipeBuf : ℕ := 4096

/-- What the client's one `read` of a body of `n` bytes returns, for whatever cells stand
behind the header: a body that was written in one piece, or at least a byte of it. -/
structure Reads where
  bytes : List Cell → ℕ → ℕ
  bytes_pos : ∀ cells n, 0 < n → 0 < bytes cells n
  bytes_le : ∀ cells n, bytes cells n ≤ n
  whole : ∀ cells n, n ≤ pipeBuf → bytes cells n = n

/-- Where the client is in its receive loop; `body` has one byte more to read than
it says, which are all or not. -/
inductive Reading where
  | header
  | body (stat : RespStatus) (left : ℕ) (short : Bool)
  deriving DecidableEq, Repr

/-- The client reads on after `RESP_CONT`, and after it has approved. -/
def readsOn (overwrite : Bool) : RespStatus → Bool
  | .cont => true
  | .approve => overwrite
  | _ => false

/-- The receive loop of the client for one request: what it leaves in the FIFO
when it asks for the next command. It blocks where this is `none`. A short body ends the
loop, as if `stat` were not `RESP_CONT`. -/
def clientLoop (overwrite : Bool) (reads : Reads) : Reading → List Cell → Option (List Cell)
  | .header, .header stat dataSize :: cells =>
    if stat = .disconnect then some cells
    else if dataSize = 0 then
      if readsOn overwrite stat then clientLoop overwrite reads .header cells else some cells
    else clientLoop overwrite reads (.body stat (reads.bytes cells dataSize - 1)
      (reads.bytes cells dataSize < dataSize)) cells
  | .body stat 0 short, .byte _ :: cells =>
    if readsOn overwrite stat ∧ (short = true → stat ≠ .cont) then
      clientLoop overwrite reads .header cells
    else some cells
  | .body stat (left + 1) short, .byte _ :: cells =>
    clientLoop overwrite reads (.body stat left short) cells
  | _, _ => none

end SystemProgramming.FileServer
