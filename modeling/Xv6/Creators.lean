import Xv6.ProcessTable

namespace Xv6.Threads

structure Trapframe where
  edi : ℕ
  esi : ℕ
  ebp : ℕ
  oesp : ℕ
  ebx : ℕ
  edx : ℕ
  ecx : ℕ
  eax : ℕ
  gs : ℕ
  fs : ℕ
  es : ℕ
  ds : ℕ
  trapno : ℕ
  err : ℕ
  eip : ℕ
  cs : ℕ
  eflags : ℕ
  esp : ℕ
  ss : ℕ
  deriving DecidableEq, Repr

inductive Code where
  | word (value : ℕ)
  | forkret
  | trapret
  deriving DecidableEq, Repr

structure Context where
  edi : ℕ
  esi : ℕ
  ebx : ℕ
  ebp : ℕ
  eip : Code
  deriving DecidableEq, Repr

def Trapframe.filled (word half : ℕ) : Trapframe :=
  { edi := word, esi := word, ebp := word, oesp := word, ebx := word, edx := word, ecx := word, eax := word
    gs := half, fs := half, es := half, ds := half, trapno := word, err := word, eip := word, cs := half
    eflags := word, esp := word, ss := half }

def Context.filled (value : ℕ) : Context := ⟨value, value, value, value, .word value⟩

structure StackMemory where
  frames : ℕ → Trapframe
  words : ℕ → Code
  contexts : ℕ → Context

def tfAddr (sp : ℕ) : ℕ := sp - 76
def wordAddr (sp : ℕ) : ℕ := tfAddr sp - 4
def contextAddr (sp : ℕ) : ℕ := wordAddr sp - 20

inductive FrameStore where
  | copy
  | zero
  | cs
  | ds
  | es
  | ss
  | eflags
  | eax
  | esp (value : ℕ)
  | eip (value : ℕ)
  deriving DecidableEq, Repr

def FrameStore.apply (source frame : Trapframe) : FrameStore → Trapframe
  | .copy => source
  | .zero => .filled 0 0
  | .cs => { frame with cs := 27 }
  | .ds => { frame with ds := 35 }
  | .es => { frame with es := frame.ds }
  | .ss => { frame with ss := frame.ds }
  | .eflags => { frame with eflags := 512 }
  | .eax => { frame with eax := 0 }
  | .esp value => { frame with esp := value }
  | .eip value => { frame with eip := value }

inductive Op where
  | kalloc
  | loadSp
  | tf
  | trapret
  | context
  | clearContext
  | contextEip
  | exitRequest
  | tproc
  | copyuvm
  | frame (store : FrameStore)
  | ustack (stack : ℕ)
  | acquire
  | used
  | runnable
  | release
  | kfree
  | kstackZero
  | unused
  | uninit
  deriving DecidableEq, Repr

def kernelStack : List Op := [.kalloc, .loadSp, .tf, .trapret, .context, .clearContext, .contextEip]

def kthreadCreate (startFunc stack : ℕ) : List Op :=
  kernelStack ++ [.exitRequest, .runnable, .ustack stack, .frame .copy,
    .frame (.eip startFunc), .frame (.esp stack)]

def fork : List Op :=
  kernelStack ++ [.tproc, .copyuvm, .frame .copy, .frame .eax, .acquire, .used, .runnable, .release]

def forkFails : List Op := [.kfree, .kstackZero, .unused, .uninit]

def userinit : List Op :=
  kernelStack ++ [.frame .zero, .frame .cs, .frame .ds, .frame .es, .frame .ss, .frame .eflags, .frame (.esp 4096),
    .frame (.eip 0), .acquire, .used, .runnable, .release]

def Op.thread (proc sp : ℕ) (t : Kthread) : Op → Kthread
  | .tf => { t with tf := tfAddr sp }
  | .context => { t with context := contextAddr sp }
  | .exitRequest => { t with exitRequest := 0 }
  | .tproc => { t with tproc := some proc }
  | .ustack stack => { t with ustack := stack }
  | .runnable => { t with state := .runnable }
  | .kstackZero => { t with kstack := 0 }
  | .uninit => { t with state := .uninit }
  | _ => t

def StackMemory.store (m : StackMemory) (sp : ℕ) (t : Kthread) (source : Trapframe) : Op → StackMemory
  | .trapret => { m with words := Function.update m.words (wordAddr sp) .trapret }
  | .clearContext => { m with contexts := Function.update m.contexts t.context (.filled 0) }
  | .contextEip =>
    { m with contexts := Function.update m.contexts t.context { m.contexts t.context with eip := .forkret } }
  | .frame st => { m with frames := Function.update m.frames t.tf (st.apply source (m.frames t.tf)) }
  | _ => m

def StackMemory.kfree (m : StackMemory) (page : ℕ) : StackMemory :=
  let sp := page + KSTACKSIZE
  { frames := Function.update m.frames (tfAddr sp) (.filled 0x01010101 0x0101)
    words := Function.update m.words (wordAddr sp) (.word 0x01010101)
    contexts := Function.update m.contexts (contextAddr sp) (.filled 0x01010101) }

end Xv6.Threads
