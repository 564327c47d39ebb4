import EspCompressor.CompressionIo
import EspCompressor.FileSystem

/-! `FileSink`: it writes to `path.tmp`, and its commit replaces `path` by renaming, with
`path.bak` to roll back to. -/
namespace EspCompressor

/-- `file` tells whether `_file` is open. -/
structure FileSink (φ : Type) where
  fs : φ
  path : Path
  truncate : Bool := true
  file : Bool := false
  isOpen : Bool := false
  written : UInt64 := 0

def tempPath (path : Path) : Path := path ++ ['.','t','m','p']
def backupPath (path : Path) : Path := path ++ ['.','b','a','k']

namespace FileSink

variable {φ : Type} (fs : FileSystem φ)

/-- Let the file system answer. -/
def ask {α : Type} (f : φ → α × φ) (k : FileSink φ) : α × FileSink φ :=
  ((f k.fs).1,{ k with fs := (f k.fs).2 })

def cleanup (path : Path) (k : FileSink φ) : FileSink φ :=
  let present := ask (fs.exists' path) k
  if present.1 then (ask (fs.remove path) present.2).2 else present.2

def cleanupTemp (k : FileSink φ) : FileSink φ := cleanup fs (tempPath k.path) k

def cleanupBackup (k : FileSink φ) : FileSink φ := cleanup fs (backupPath k.path) k

/-- `_file.close()` -/
def closeFile (k : FileSink φ) : FileSink φ :=
  { k with fs := fs.closeFile (tempPath k.path) k.fs, file := false }

/-- `open`, once the destination may be replaced. -/
def openTemp (k : FileSink φ) : CompressionError × FileSink φ :=
  let made := ask (espCompressorEnsureDir fs (espCompressorDirname k.path)) k
  if made.1 = false then (.openFailed,made.2)
  else
    let k := cleanupBackup fs (cleanupTemp fs made.2)
    let opened := ask (fs.openWrite (tempPath k.path)) k
    if opened.1 = false then (.openFailed,{ opened.2 with file := false })
    else (.ok,{ opened.2 with file := true, written := 0, isOpen := true })

def open' (k : FileSink φ) : CompressionError × FileSink φ :=
  if k.path = [] then (.invalidArgument,k)
  else if k.truncate = false then
    let present := ask (fs.exists' k.path) k
    if present.1 then (.openFailed,present.2) else openTemp fs present.2
  else openTemp fs k

def write (bytes : List UInt8) (k : FileSink φ) : CompressionError × FileSink φ :=
  if k.isOpen = false ∨ k.file = false then (.writeFailed,k)
  else if bytes.length = 0 then (.ok,k)
  else
    let r := ask (fs.write (tempPath k.path) bytes) k
    if r.1 ≠ bytes.length then (.writeFailed,r.2)
    else (.ok,{ r.2 with written := r.2.written + UInt64.ofNat r.1 })

/-- The second rename of `commit`, and what follows it. -/
def publish (hadDestination : Bool) (k : FileSink φ) : CompressionError × FileSink φ :=
  let renamed := ask (fs.rename (tempPath k.path) k.path) k
  if renamed.1 = false then
    let k := if hadDestination then
        (ask (fs.rename (backupPath renamed.2.path) renamed.2.path) renamed.2).2
      else renamed.2
    (.writeFailed,cleanupTemp fs k)
  else (.ok,cleanupBackup fs renamed.2)

def commit (k : FileSink φ) : CompressionError × FileSink φ :=
  if k.isOpen = false ∨ k.file = false then (.writeFailed,k)
  else
    let hadDestination := ask (fs.exists' k.path) (closeFile fs k)
    if hadDestination.1 then
      let k := cleanupBackup fs hadDestination.2
      let renamed := ask (fs.rename k.path (backupPath k.path)) k
      if renamed.1 = false then (.writeFailed,renamed.2) else publish fs true renamed.2
    else publish fs false hadDestination.2

def abort (k : FileSink φ) : FileSink φ :=
  let k := if k.file then closeFile fs k else k
  cleanupBackup fs (cleanupTemp fs k)

def close (k : FileSink φ) : FileSink φ :=
  let k := if k.file then closeFile fs k else k
  { k with isOpen := false }

def sink : CompressionSink (FileSink φ) where
  open' := open' fs
  write := write fs
  commit := commit fs
  abort := abort fs
  close := close fs
  bytesWritten k := k.written
  isTransactional _ := true

end FileSink
end EspCompressor
