import EterOS.Fs.Jfs
/-!
# Initrd — the read-only image at the root

`kernel/fs/initrd.c`: an image in memory and its file headers.  A directory is what a header's name has before a slash;
its node gets a hash of its path for an inode.  The list of virtual directories is empty: nothing is ever put in it.
-/
namespace EterOS.Fs

/-- `initrd_file_header_t`, its name up to the first zero or all 64 bytes. -/
structure InitrdHeader where
  name : CStr
  size : UInt32
  offset : UInt32
deriving DecidableEq

structure Initrd where
  image : Buffer
  imageSize : UInt32
  headers : List InitrdHeader

/-- A node of the initrd: the root, a directory with its path (`full_path`) or the file of a header. -/
inductive InitrdNode where
  | root
  | dir (path : CStr)
  | file (i : Nat)
deriving DecidableEq

def CStr.ofBytes (l : List UInt8) : CStr where
  bytes := l.takeWhile fun c => c ≠ 0
  nonzero := fun h => by simpa using List.all_eq_true.1 List.all_takeWhile _ h

def charValue (c : UInt8) : UInt32 := if c < 128 then c.toUInt32 else c.toUInt32 - 256

def dirHash (path : CStr) : UInt32 := path.bytes.foldl (fun hash c => (hash <<< 5) + hash + charValue c) 5381

namespace InitrdNode

def key (x : Initrd) : InitrdNode → UInt32 × UInt32
  | root => (0, 0)
  | dir path => (UInt32.ofNat x.headers.length + 1 + (dirHash path &&& 0x7FFFFFFF), 0)
  | file i => (UInt32.ofNat i, 0)

def isDir : InitrdNode → Bool
  | root | dir _ => true
  | file _ => false

end InitrdNode

def initrdTarget (node : InitrdNode) (name : CStr) : Option CStr :=
  match node with
  | .root => some (CStr.ofBytes (name.bytes.take 255))
  | .dir path => some (CStr.ofBytes ((path.bytes ++ [47] ++ name.bytes).take 255))
  | .file _ => none

/-- `initrd_finddir`: a file with this path, or else a directory some file is in. -/
def initrdFinddir (x : Initrd) (node : InitrdNode) (name : CStr) : Option InitrdNode :=
  match initrdTarget node name with
  | none => none
  | some target =>
    if name.bytes = [] then none
    else
      match x.headers.findIdx? fun h => h.name = target with
      | some i => some (.file i)
      | none =>
        if x.headers.any fun h => (target.bytes ++ [47]).isPrefixOf h.name.bytes then some (.dir target) else none

/-- `initrd_read` of the file of a header: what it returns, and the buffer. -/
def initrdRead (x : Initrd) (header : InitrdHeader) (offset size : UInt32) (buffer : Buffer) : UInt32 × Buffer :=
  if header.size < offset then (0, buffer)
  else
    let size := if header.size < offset + size then header.size - offset else size
    if x.imageSize ≤ header.offset then (0, buffer)
    else
      let start := header.offset.toNat + offset.toNat
      if x.imageSize.toNat < start + size.toNat then
        if x.imageSize.toNat ≤ start then (0, buffer)
        else
          let size := x.imageSize - (header.offset + offset)
          (size, buffer.blit 0 (x.image.drop start) size.toNat)
      else (size, buffer.blit 0 (x.image.drop start) size.toNat)

end EterOS.Fs
