import Linemark.Text.Bytes

/-!
# Failures of input and output

Why a read, a write or an attempt to open a file did not succeed. A failure is known by its kind
and by its wording, which is all that a user ever sees. The wording has three origins: the
operating system's, one given along with the kind, or the standing one of the kind itself.
-/

namespace Linemark

/-! ## Kinds of failure

What sort of thing went wrong in reading, writing or opening. The kind is all that decides what
happens next. Each kind has a standing wording, for a failure of which nothing else is known. -/

/-- The kinds of failure that are told apart. -/
inductive FailureKind
  | addressInUse
  | addressNotAvailable
  | alreadyExists
  | argumentListTooLong
  | brokenPipe
  | connectionAborted
  | connectionRefused
  | connectionReset
  | crossesDevices
  | deadlock
  | directoryNotEmpty
  | executableFileBusy
  | fileTooLarge
  | filesystemLoop
  | hostUnreachable
  | inProgress
  | interrupted
  | invalidData
  | invalidFilename
  | invalidInput
  | isADirectory
  | networkDown
  | networkUnreachable
  | notADirectory
  | notConnected
  | notFound
  | notSeekable
  | other
  | outOfMemory
  | permissionDenied
  | quotaExceeded
  | readOnlyFilesystem
  | resourceBusy
  | staleFileHandle
  | storageFull
  | timedOut
  | tooManyLinks
  | tooManyOpenFiles
  | uncategorized
  | unexpectedEnd
  | unsupported
  | wouldBlock
  | writeZero
  deriving DecidableEq, Repr, Inhabited

/-- The standing wording of a kind. -/
def FailureKind.message : FailureKind → String
  | .addressInUse => "address in use"
  | .addressNotAvailable => "address not available"
  | .alreadyExists => "entity already exists"
  | .argumentListTooLong => "argument list too long"
  | .brokenPipe => "broken pipe"
  | .connectionAborted => "connection aborted"
  | .connectionRefused => "connection refused"
  | .connectionReset => "connection reset"
  | .crossesDevices => "cross-device link or rename"
  | .deadlock => "deadlock"
  | .directoryNotEmpty => "directory not empty"
  | .executableFileBusy => "executable file busy"
  | .fileTooLarge => "file too large"
  | .filesystemLoop => "filesystem loop or indirection limit (e.g. symlink loop)"
  | .hostUnreachable => "host unreachable"
  | .inProgress => "in progress"
  | .interrupted => "operation interrupted"
  | .invalidData => "invalid data"
  | .invalidFilename => "invalid filename"
  | .invalidInput => "invalid input parameter"
  | .isADirectory => "is a directory"
  | .networkDown => "network down"
  | .networkUnreachable => "network unreachable"
  | .notADirectory => "not a directory"
  | .notConnected => "not connected"
  | .notFound => "entity not found"
  | .notSeekable => "seek on unseekable file"
  | .other => "other error"
  | .outOfMemory => "out of memory"
  | .permissionDenied => "permission denied"
  | .quotaExceeded => "quota exceeded"
  | .readOnlyFilesystem => "read-only filesystem or storage medium"
  | .resourceBusy => "resource busy"
  | .staleFileHandle => "stale network file handle"
  | .storageFull => "no storage space"
  | .timedOut => "timed out"
  | .tooManyLinks => "too many links"
  | .tooManyOpenFiles => "too many open files"
  | .uncategorized => "uncategorized error"
  | .unexpectedEnd => "unexpected end of file"
  | .unsupported => "unsupported"
  | .wouldBlock => "operation would block"
  | .writeZero => "write zero"

/-! ## Errors of the operating system

The operating system reports errors by number. What a number means is a matter of convention, so it
is held in two tables: the system's own wording of each number, and the kind of failure that it is.
A number that is in neither is still an error: it is worded as unknown and has no particular
kind. -/

/-- An error that the operating system reported, by its number. -/
structure SystemError where
  /-- The number the system uses. -/
  number : Nat
  deriving DecidableEq, Repr

namespace SystemError

/-! ### The errors that are raised here -/

/-- A name on a path leads nowhere. -/
def noSuchEntry : SystemError := ⟨2⟩

/-- Something is written where nothing can be written. -/
def badDescriptor : SystemError := ⟨9⟩

/-- A path goes on after something that is no directory. -/
def notADirectory : SystemError := ⟨20⟩

/-- There is no room for what is written. -/
def noSpaceLeft : SystemError := ⟨28⟩

/-- A name on a path, or the path itself, is too long. -/
def nameTooLong : SystemError := ⟨36⟩

/-! ### Tables -/

/-- The system's wording, by number. -/
def wordings : List (Nat × String) :=
  [(0, "Success"),
   (1, "Operation not permitted"),
   (2, "No such file or directory"),
   (3, "No such process"),
   (4, "Interrupted system call"),
   (5, "Input/output error"),
   (6, "No such device or address"),
   (7, "Argument list too long"),
   (8, "Exec format error"),
   (9, "Bad file descriptor"),
   (10, "No child processes"),
   (11, "Resource temporarily unavailable"),
   (12, "Cannot allocate memory"),
   (13, "Permission denied"),
   (14, "Bad address"),
   (15, "Block device required"),
   (16, "Device or resource busy"),
   (17, "File exists"),
   (18, "Invalid cross-device link"),
   (19, "No such device"),
   (20, "Not a directory"),
   (21, "Is a directory"),
   (22, "Invalid argument"),
   (23, "Too many open files in system"),
   (24, "Too many open files"),
   (25, "Inappropriate ioctl for device"),
   (26, "Text file busy"),
   (27, "File too large"),
   (28, "No space left on device"),
   (29, "Illegal seek"),
   (30, "Read-only file system"),
   (31, "Too many links"),
   (32, "Broken pipe"),
   (33, "Numerical argument out of domain"),
   (34, "Numerical result out of range"),
   (35, "Resource deadlock avoided"),
   (36, "File name too long"),
   (37, "No locks available"),
   (38, "Function not implemented"),
   (39, "Directory not empty"),
   (40, "Too many levels of symbolic links"),
   (42, "No message of desired type"),
   (43, "Identifier removed"),
   (44, "Channel number out of range"),
   (45, "Level 2 not synchronized"),
   (46, "Level 3 halted"),
   (47, "Level 3 reset"),
   (48, "Link number out of range"),
   (49, "Protocol driver not attached"),
   (50, "No CSI structure available"),
   (51, "Level 2 halted"),
   (52, "Invalid exchange"),
   (53, "Invalid request descriptor"),
   (54, "Exchange full"),
   (55, "No anode"),
   (56, "Invalid request code"),
   (57, "Invalid slot"),
   (59, "Bad font file format"),
   (60, "Device not a stream"),
   (61, "No data available"),
   (62, "Timer expired"),
   (63, "Out of streams resources"),
   (64, "Machine is not on the network"),
   (65, "Package not installed"),
   (66, "Object is remote"),
   (67, "Link has been severed"),
   (68, "Advertise error"),
   (69, "Srmount error"),
   (70, "Communication error on send"),
   (71, "Protocol error"),
   (72, "Multihop attempted"),
   (73, "RFS specific error"),
   (74, "Bad message"),
   (75, "Value too large for defined data type"),
   (76, "Name not unique on network"),
   (77, "File descriptor in bad state"),
   (78, "Remote address changed"),
   (79, "Can not access a needed shared library"),
   (80, "Accessing a corrupted shared library"),
   (81, ".lib section in a.out corrupted"),
   (82, "Attempting to link in too many shared libraries"),
   (83, "Cannot exec a shared library directly"),
   (84, "Invalid or incomplete multibyte or wide character"),
   (85, "Interrupted system call should be restarted"),
   (86, "Streams pipe error"),
   (87, "Too many users"),
   (88, "Socket operation on non-socket"),
   (89, "Destination address required"),
   (90, "Message too long"),
   (91, "Protocol wrong type for socket"),
   (92, "Protocol not available"),
   (93, "Protocol not supported"),
   (94, "Socket type not supported"),
   (95, "Operation not supported"),
   (96, "Protocol family not supported"),
   (97, "Address family not supported by protocol"),
   (98, "Address already in use"),
   (99, "Cannot assign requested address"),
   (100, "Network is down"),
   (101, "Network is unreachable"),
   (102, "Network dropped connection on reset"),
   (103, "Software caused connection abort"),
   (104, "Connection reset by peer"),
   (105, "No buffer space available"),
   (106, "Transport endpoint is already connected"),
   (107, "Transport endpoint is not connected"),
   (108, "Cannot send after transport endpoint shutdown"),
   (109, "Too many references: cannot splice"),
   (110, "Connection timed out"),
   (111, "Connection refused"),
   (112, "Host is down"),
   (113, "No route to host"),
   (114, "Operation already in progress"),
   (115, "Operation now in progress"),
   (116, "Stale file handle"),
   (117, "Structure needs cleaning"),
   (118, "Not a XENIX named type file"),
   (119, "No XENIX semaphores available"),
   (120, "Is a named type file"),
   (121, "Remote I/O error"),
   (122, "Disk quota exceeded"),
   (123, "No medium found"),
   (124, "Wrong medium type"),
   (125, "Operation canceled"),
   (126, "Required key not available"),
   (127, "Key has expired"),
   (128, "Key has been revoked"),
   (129, "Key was rejected by service"),
   (130, "Owner died"),
   (131, "State not recoverable"),
   (132, "Operation not possible due to RF-kill"),
   (133, "Memory page has hardware error")]

/-- The numbers of the errors that are of a particular kind. -/
def kinds : List (Nat × FailureKind) :=
  [(1, .permissionDenied), (2, .notFound), (4, .interrupted), (7, .argumentListTooLong),
   (11, .wouldBlock), (12, .outOfMemory), (13, .permissionDenied), (16, .resourceBusy),
   (17, .alreadyExists), (18, .crossesDevices), (20, .notADirectory), (21, .isADirectory),
   (22, .invalidInput), (23, .tooManyOpenFiles), (24, .tooManyOpenFiles),
   (26, .executableFileBusy), (27, .fileTooLarge), (28, .storageFull), (29, .notSeekable),
   (30, .readOnlyFilesystem), (31, .tooManyLinks), (32, .brokenPipe),
   (35, .deadlock), (36, .invalidFilename), (38, .unsupported), (39, .directoryNotEmpty),
   (40, .filesystemLoop), (95, .unsupported), (98, .addressInUse), (99, .addressNotAvailable),
   (100, .networkDown), (101, .networkUnreachable), (103, .connectionAborted),
   (104, .connectionReset), (107, .notConnected), (110, .timedOut), (111, .connectionRefused),
   (113, .hostUnreachable), (115, .inProgress), (116, .staleFileHandle), (122, .quotaExceeded)]

/-- The wording of an error: the system's, or that its number is unknown. -/
def wording (e : SystemError) : String :=
  (wordings.lookup e.number).getD ("Unknown error " ++ decimal e.number)

/-- An error as it is shown: its wording, and its number. -/
def message (e : SystemError) : String :=
  e.wording ++ " (os error " ++ decimal e.number ++ ")"

/-- The kind of failure an error is. -/
def kind (e : SystemError) : FailureKind := (kinds.lookup e.number).getD .uncategorized

/-- An error of a particular kind has a wording. -/
theorem isSome_lookup_wordings {n : Nat} {k : FailureKind} (h : (n, k) ∈ kinds) :
    (wordings.lookup n).isSome := by
  have : ∀ p ∈ kinds, (wordings.lookup p.1).isSome := by decide
  exact this _ h

end SystemError

/-! ## Failures -/

/-- One failure, by where its wording comes from. -/
inductive Failure
  /-- The operating system reported it. -/
  | system (error : SystemError)
  /-- Whoever reported it gave a wording along. -/
  | described (kind : FailureKind) (wording : String)
  /-- Nothing but the kind is known. -/
  | plain (kind : FailureKind)
  deriving DecidableEq, Repr

namespace Failure

/-- The kind of a failure. -/
def kind : Failure → FailureKind
  | .system error => error.kind
  | .described kind _ => kind
  | .plain kind => kind

/-- The wording of a failure. -/
def message : Failure → String
  | .system error => error.message
  | .described _ wording => wording
  | .plain kind => kind.message

/-- A sink that takes nothing of what it is given. -/
def writeZero : Failure := .described .writeZero "failed to write whole buffer"

end Failure

/-! ## Inputs that cannot be opened

Once an input is open, a failing read is the end of it. Only opening can fail for a reader to
see. -/

/-- An input that could not be opened. -/
structure OpenError where
  /-- The path that was given. -/
  path : String
  /-- Why it could not be opened. -/
  failure : Failure
  deriving DecidableEq, Repr

namespace OpenError

/-- The wording of the error, with the failure's own. -/
def message (e : OpenError) : String := "cannot open '" ++ e.path ++ "': " ++ e.failure.message

/-- The error as a user is told of it: the two common failures have a wording of their own. -/
def describe (e : OpenError) : String :=
  match e.failure.kind with
  | .notFound => "cannot find file '" ++ e.path ++ "'"
  | .permissionDenied => "permission denied reading '" ++ e.path ++ "'"
  | _ => e.message

end OpenError

end Linemark
