import Xv6.FileSystem

namespace Xv6.FileSystem

def IPB : ℕ := BSIZE / 64

def nbitmap : ℕ := FSSIZE / (BSIZE * 8) + 1

def ninodeblocks : ℕ := NINODES / IPB + 1

def nmeta : ℕ := 2 + LOGSIZE + ninodeblocks + nbitmap

structure Image where
  inode : ℕ → Dinode
  freeinode : ℕ
  freeblock : ℕ

namespace Mkfs

def ialloc (m : Image) (type : FileType) : Image where
  inode := Function.update m.inode m.freeinode ⟨type, 0, 0, 1, 0, []⟩
  freeinode := m.freeinode + 1
  freeblock := m.freeblock

def iappend (m : Image) (inum n : ℕ) (entries : List Dirent) : Image :=
  let ip := m.inode inum
  { m with
    inode := Function.update m.inode inum { ip with size := ip.size + n, entries := ip.entries ++ entries }
    freeblock := m.freeblock + (blocks (ip.size + n) - blocks ip.size) }

def blank : Image where
  inode := fun _ => ⟨.free, 0, 0, 0, 0, []⟩
  freeinode := 1
  freeblock := nmeta

def root : Image :=
  iappend (iappend (ialloc blank .dir) ROOTINO 16 [⟨ROOTINO, dot⟩]) ROOTINO 16 [⟨ROOTINO, dotdot⟩]

def fileName (name : List Char) : Name :=
  match name with
  | '_' :: name => name.take DIRSIZ
  | name => name.take DIRSIZ

def addFile (m : Image) (file : List Char × ℕ) : Image :=
  iappend (iappend (ialloc m .file) ROOTINO 16 [⟨m.freeinode, fileName file.1⟩]) m.freeinode file.2 []

def fixRoot (m : Image) : Image :=
  let ip := m.inode ROOTINO
  let off := (ip.size / BSIZE + 1) * BSIZE
  let entries := ip.entries ++ List.replicate ((off - ip.size) / 16) .zero
  { m with inode := Function.update m.inode ROOTINO { ip with size := off, entries } }

end Mkfs

def mkfs (files : List (List Char × ℕ)) : Image := Mkfs.fixRoot (files.foldl Mkfs.addFile Mkfs.root)

def boot (files : List (List Char × ℕ)) : System where
  state := {
    inode := (mkfs files).inode
    freeBlocks := FSSIZE - (mkfs files).freeblock
    icache := ⟨Function.update (fun _ => 0) ROOTINO 1, fun _ => false, fun _ => false, 1⟩
    file := fun _ => ⟨0, none⟩
    proc := Function.update (fun _ => none) initproc (some ⟨ROOTINO, fun _ => none⟩) }
  stopped := none

end Xv6.FileSystem
