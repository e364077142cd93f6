import QuantumIR.Intrinsic

/-! # The known functions

The intrinsics by subject. A name that continues the name of an intrinsic with free types, after a
point, is a name of it as well. The intrinsics of single targets, such as those whose names begin
with `llvm.x86.`, `llvm.aarch64.` or `llvm.nvvm.`, are left out: they are functions with a reserved
name, without attributes or checks of their own.
-/

namespace QuantumIR

namespace Intrinsic

def bytePtr : Shape := .ptr (.int 8)

def bytePtrPtr : Shape := .ptr bytePtr

def anyInt : Shape := .free .integer

def anyFloat : Shape := .free .float

def anyPtr : Shape := .free .pointer

/-- A vector, or a struct without a name. -/
def anyVector : Shape := .free .foreign

/-- The function returns, and other threads and the memory allocator do not notice. -/
def calm : List Mark := [.noFree, .noSync, .noUnwind, .willReturn]

def constant : List Mark := .readNone :: calm

/-- The function may as well be called where its result is not needed. -/
def speculative : List Mark := .speculatable :: constant

/-- The function changes something that the program cannot see. -/
def hidden : List Mark := .inaccessibleMemOnly :: calm

def immediate (n : Nat) : Nat × List Mark := (n, [.immArg])

def family (names : List String) (output : Shape) (params : List Shape) (marks : List Mark)
    (paramMarks : List (Nat × List Mark) := []) (check : Check := .always) : List Intrinsic :=
  names.map fun name => { name := "llvm." ++ name, output, params, marks, paramMarks, check }

def floats : List Intrinsic :=
  family ["sqrt", "sin", "cos", "log", "log10", "log2", "exp", "exp2", "fabs", "floor", "ceil",
      "trunc", "rint", "nearbyint", "round", "roundeven", "canonicalize"]
    anyFloat [.same 0] speculative ++
  family ["pow", "copysign", "minnum", "maxnum", "minimum", "maximum"]
    anyFloat [.same 0, .same 0] speculative ++
  family ["powi"] anyFloat [.same 0, anyInt] speculative ++
  family ["fma", "fmuladd"] anyFloat [.same 0, .same 0, .same 0] speculative ++
  family ["arithmetic.fence"] anyFloat [.same 0]
    [.noUnwind, .readNone, .speculatable, .willReturn] ++
  family ["lround", "llround", "lrint", "llrint", "fptoui.sat", "fptosi.sat"]
    anyInt [anyFloat] speculative ++
  family ["convert.to.fp16"] (.int 16) [anyFloat] constant ++
  family ["convert.from.fp16"] anyFloat [.int 16] constant ++
  family ["flt.rounds"] (.int 32) [] hidden ++
  family ["set.rounding"] .void [.int 32] hidden

/-- Floating-point functions that are told the rounding and the exceptions. -/
def strictFloats : List Intrinsic :=
  family ["experimental.constrained.fadd", "experimental.constrained.fsub",
      "experimental.constrained.fmul", "experimental.constrained.fdiv",
      "experimental.constrained.frem", "experimental.constrained.pow"]
    anyFloat [.same 0, .same 0, .foreign, .foreign] hidden ++
  family ["experimental.constrained.fma", "experimental.constrained.fmuladd"]
    anyFloat [.same 0, .same 0, .same 0, .foreign, .foreign] hidden ++
  family ["experimental.constrained.fptosi", "experimental.constrained.fptoui",
      "experimental.constrained.lround", "experimental.constrained.llround"]
    anyInt [anyFloat, .foreign] hidden ++
  family ["experimental.constrained.sitofp", "experimental.constrained.uitofp"]
    anyFloat [anyInt, .foreign, .foreign] hidden ++
  family ["experimental.constrained.fptrunc"] anyFloat [anyFloat, .foreign, .foreign] hidden ++
  family ["experimental.constrained.fpext"] anyFloat [anyFloat, .foreign] hidden ++
  family ["experimental.constrained.sqrt", "experimental.constrained.sin",
      "experimental.constrained.cos", "experimental.constrained.exp",
      "experimental.constrained.exp2", "experimental.constrained.log",
      "experimental.constrained.log10", "experimental.constrained.log2",
      "experimental.constrained.rint", "experimental.constrained.nearbyint"]
    anyFloat [.same 0, .foreign, .foreign] hidden ++
  family ["experimental.constrained.powi"]
    anyFloat [.same 0, .int 32, .foreign, .foreign] hidden ++
  family ["experimental.constrained.lrint", "experimental.constrained.llrint"]
    anyInt [anyFloat, .foreign, .foreign] hidden ++
  family ["experimental.constrained.maxnum", "experimental.constrained.minnum",
      "experimental.constrained.maximum", "experimental.constrained.minimum"]
    anyFloat [.same 0, .same 0, .foreign] hidden ++
  family ["experimental.constrained.ceil", "experimental.constrained.floor",
      "experimental.constrained.round", "experimental.constrained.roundeven",
      "experimental.constrained.trunc"]
    anyFloat [.same 0, .foreign] hidden ++
  family ["experimental.constrained.fcmp", "experimental.constrained.fcmps"]
    (.int 1) [anyFloat, .same 0, .foreign, .foreign] hidden

def integers : List Intrinsic :=
  family ["bswap"] anyInt [.same 0] speculative [] .evenBytes ++
  family ["ctpop", "bitreverse"] anyInt [.same 0] speculative ++
  family ["fshl", "fshr"] anyInt [.same 0, .same 0, .same 0] speculative ++
  family ["ctlz", "cttz", "abs"] anyInt [.same 0, .int 1] speculative [immediate 1] ++
  family ["smax", "smin", "umax", "umin", "sadd.sat", "uadd.sat", "ssub.sat", "usub.sat",
      "sshl.sat", "ushl.sat"]
    anyInt [.same 0, .same 0] speculative ++
  family ["smul.fix", "smul.fix.sat"] anyInt [.same 0, .same 0, .int 32] speculative
    [immediate 2] (.scale true) ++
  family ["umul.fix", "umul.fix.sat"] anyInt [.same 0, .same 0, .int 32] speculative
    [immediate 2] (.scale false) ++
  family ["sdiv.fix", "sdiv.fix.sat"] anyInt [.same 0, .same 0, .int 32] constant
    [immediate 2] (.scale true) ++
  family ["udiv.fix", "udiv.fix.sat"] anyInt [.same 0, .same 0, .int 32] constant
    [immediate 2] (.scale false) ++
  family ["sadd.with.overflow", "uadd.with.overflow", "ssub.with.overflow", "usub.with.overflow",
      "smul.with.overflow", "umul.with.overflow"]
    anyVector [.foreign, .foreign] speculative ++
  family ["expect"] anyInt [.same 0, .same 0] constant ++
  family ["expect.with.probability"] anyInt [.same 0, .same 0, .double] constant [immediate 2] ++
  family ["is.constant"] (.int 1) [.free .anything] (.convergent :: constant) ++
  family ["ssa.copy"] (.free .anything) [.same 0] constant [(0, [.returned])] ++
  family ["vscale"] anyInt [] constant

def blocks : List Intrinsic :=
  family ["memcpy"] .void [anyPtr, anyPtr, anyInt, .int 1]
    [.argMemOnly, .noFree, .noUnwind, .willReturn]
    [(0, [.noAlias, .noCapture, .writeOnly]), (1, [.noAlias, .noCapture, .readOnly]),
      immediate 3] ++
  family ["memcpy.inline"] .void [anyPtr, anyPtr, anyInt, .int 1]
    [.argMemOnly, .noFree, .noUnwind, .willReturn]
    [(0, [.noAlias, .noCapture, .writeOnly]), (1, [.noAlias, .noCapture, .readOnly]),
      immediate 2, immediate 3] ++
  family ["memmove"] .void [anyPtr, anyPtr, anyInt, .int 1]
    [.argMemOnly, .noFree, .noUnwind, .willReturn]
    [(0, [.noCapture, .writeOnly]), (1, [.noCapture, .readOnly]), immediate 3] ++
  family ["memset"] .void [anyPtr, .int 8, anyInt, .int 1]
    [.argMemOnly, .noFree, .noUnwind, .willReturn, .writeOnly]
    [(0, [.noCapture, .writeOnly]), immediate 3] ++
  family ["memcpy.element.unordered.atomic", "memmove.element.unordered.atomic"]
    .void [anyPtr, anyPtr, anyInt, .int 32] [.argMemOnly, .noSync, .noUnwind, .willReturn]
    [(0, [.noCapture, .writeOnly]), (1, [.noCapture, .readOnly]), immediate 3] .never ++
  family ["memset.element.unordered.atomic"] .void [anyPtr, .int 8, anyInt, .int 32]
    [.argMemOnly, .noSync, .noUnwind, .willReturn, .writeOnly]
    [(0, [.noCapture, .writeOnly]), immediate 3] .never

def memory : List Intrinsic :=
  family ["lifetime.start", "lifetime.end"] .void [.int 64, anyPtr] (.argMemOnly :: calm)
    [immediate 0, (1, [.noCapture])] ++
  family ["invariant.start"] .foreign [.int 64, anyPtr] (.argMemOnly :: calm)
    [immediate 0, (1, [.noCapture])] ++
  family ["invariant.end"] .void [.foreign, .int 64, anyPtr] (.argMemOnly :: calm)
    [immediate 1, (2, [.noCapture])] ++
  family ["launder.invariant.group"] anyPtr [.same 0] (.speculatable :: hidden) ++
  family ["strip.invariant.group"] anyPtr [.same 0] speculative ++
  family ["prefetch"] .void [anyPtr, .int 32, .int 32, .int 32]
    (.inaccessibleMemOrArgMemOnly :: calm)
    [(0, [.noCapture, .readOnly]), immediate 1, immediate 2] .prefetch ++
  family ["objectsize"] anyInt [anyPtr, .int 1, .int 1, .int 1] speculative
    [immediate 1, immediate 2, immediate 3] ++
  family ["ptrmask"] anyPtr [.same 0, anyInt] speculative ++
  family ["load.relative"] bytePtr [bytePtr, anyInt] (.argMemOnly :: .readOnly :: calm) ++
  family ["clear_cache"] .void [bytePtr, bytePtr] [.noUnwind] ++
  family ["experimental.noalias.scope.decl"] .void [.foreign] hidden ++
  family ["asan.check.memaccess"] .void [bytePtr, .int 32] [.noUnwind] [immediate 1] ++
  family ["hwasan.check.memaccess", "hwasan.check.memaccess.shortgranules"]
    .void [bytePtr, bytePtr, .int 32] [.noUnwind] [immediate 2]

def stack : List Intrinsic :=
  family ["va_start", "va_end"] .void [bytePtr] calm ++
  family ["va_copy"] .void [bytePtr, bytePtr] calm ++
  family ["returnaddress"] bytePtr [.int 32] constant [immediate 0] ++
  family ["addressofreturnaddress", "sponentry"] anyPtr [] constant ++
  family ["frameaddress"] anyPtr [.int 32] constant [immediate 0] ++
  family ["read_register"] anyInt [.foreign] (.readOnly :: calm) ++
  family ["write_register"] .void [.foreign, anyInt] [.noUnwind] ++
  family ["read_volatile_register"] anyInt [.foreign] [.noUnwind] ++
  family ["localaddress", "thread.pointer"] bytePtr [] constant ++
  family ["localescape"] .void [.foreign] calm ++
  family ["localrecover"] bytePtr [bytePtr, bytePtr, .int 32] constant [immediate 2] .never ++
  family ["stacksave", "stackguard"] bytePtr [] calm ++
  family ["stackrestore"] .void [bytePtr] calm ++
  family ["stackprotector"] .void [bytePtr, bytePtrPtr] calm [] .never ++
  family ["get.dynamic.area.offset"] anyInt [] calm ++
  family ["swift.async.context.addr"] bytePtrPtr [] [.noUnwind, .readNone] ++
  family ["call.preallocated.setup"] .foreign [.int 32] calm ++
  family ["call.preallocated.arg"] bytePtr [.foreign, .int 32] calm ++
  family ["call.preallocated.teardown"] .void [.foreign] calm ++
  family ["init.trampoline"] .void [bytePtr, bytePtr, bytePtr] (.argMemOnly :: calm)
    [(0, [.noCapture])] .nestedFunction ++
  family ["adjust.trampoline"] bytePtr [bytePtr] (.argMemOnly :: .readOnly :: calm)

def control : List Intrinsic :=
  family ["trap"] .void [] [.cold, .noReturn, .noUnwind] ++
  family ["debugtrap"] .void [] [.noUnwind] ++
  family ["ubsantrap"] .void [.int 8] [.cold, .noReturn, .noUnwind] [immediate 0] ++
  family ["assume"] .void [.int 1] hidden [(0, [.noUndef])] ++
  family ["donothing"] .void [] constant ++
  family ["sideeffect"] .void [] hidden ++
  family ["pseudoprobe"] .void [.int 64, .int 64, .int 32, .int 64] hidden
    [immediate 0, immediate 1, immediate 2, immediate 3] ++
  family ["pcmarker"] .void [.int 32] calm ++
  family ["readcyclecounter"] (.int 64) [] calm ++
  family ["experimental.widenable.condition"] (.int 1) [] (.speculatable :: hidden) ++
  family ["experimental.deoptimize"] (.free .anything) [.foreign] [] ++
  family ["experimental.guard"] .void [.int 1, .foreign] [.noFree, .noSync, .willReturn] ++
  family ["experimental.stackmap"] .void [.int 64, .int 32, .foreign]
    [.noFree, .noSync, .willReturn] ++
  family ["experimental.patchpoint.void"] .void [.int 64, .int 32, bytePtr, .int 32, .foreign] [] ++
  family ["experimental.patchpoint.i64"] (.int 64) [.int 64, .int 32, bytePtr, .int 32, .foreign]
    [] ++
  family ["icall.branch.funnel"] .void [.foreign] calm ++
  family ["set.loop.iterations"] .void [anyInt] (.noDuplicate :: calm) ++
  family ["start.loop.iterations"] anyInt [.same 0] (.noDuplicate :: calm) ++
  family ["test.set.loop.iterations", "loop.decrement"] (.int 1) [anyInt] (.noDuplicate :: calm) ++
  family ["test.start.loop.iterations"] anyVector [.foreign] (.noDuplicate :: calm) ++
  family ["loop.decrement.reg"] anyInt [.same 0, .same 0] (.noDuplicate :: calm)

def exceptions : List Intrinsic :=
  family ["eh.typeid.for"] (.int 32) [bytePtr] [.noUnwind, .readNone] ++
  family ["eh.return.i32"] .void [.int 32, bytePtr] [.noUnwind] ++
  family ["eh.return.i64"] .void [.int 64, bytePtr] [.noUnwind] ++
  family ["eh.exceptionpointer"] anyPtr [.foreign] [.noUnwind, .readNone] ++
  family ["eh.exceptioncode"] (.int 32) [.foreign] [.noUnwind, .readNone] ++
  family ["eh.unwind.init", "eh.sjlj.setup.dispatch"] .void [] [.noUnwind] ++
  family ["eh.dwarf.cfa"] bytePtr [.int 32] [.noUnwind] ++
  family ["eh.sjlj.lsda"] bytePtr [] [.noUnwind, .readNone] ++
  family ["eh.sjlj.callsite"] .void [.int 32] [.noUnwind, .readNone] [immediate 0] ++
  family ["eh.sjlj.functioncontext"] .void [bytePtr] [.noUnwind] ++
  family ["eh.sjlj.setjmp"] (.int 32) [bytePtr] [.noUnwind] ++
  family ["eh.sjlj.longjmp"] .void [bytePtr] [.noReturn, .noUnwind] ++
  family ["eh.recoverfp"] bytePtr [bytePtr, bytePtr] constant ++
  family ["seh.try.begin", "seh.try.end"] .void [] [.noUnwind, .willReturn, .writeOnly] ++
  family ["seh.scope.begin", "seh.scope.end"] .void [] [.noUnwind, .readNone]

def annotations : List Intrinsic :=
  family ["dbg.declare", "dbg.value", "dbg.addr"] .void [.foreign, .foreign, .foreign]
    speculative ++
  family ["dbg.label"] .void [.foreign] speculative ++
  family ["var.annotation"] .void [bytePtr, bytePtr, bytePtr, .int 32, bytePtr] hidden ++
  family ["ptr.annotation"] anyPtr [.same 0, bytePtr, bytePtr, .int 32, bytePtr] hidden ++
  family ["annotation"] anyInt [.same 0, bytePtr, bytePtr, .int 32] hidden ++
  family ["codeview.annotation"] .void [.foreign] (.noDuplicate :: hidden) ++
  family ["instrprof.cover", "instrprof.increment"] .void [bytePtr, .int 64, .int 32, .int 32]
    [.noUnwind] ++
  family ["instrprof.increment.step"] .void [bytePtr, .int 64, .int 32, .int 32, .int 64]
    [.noUnwind] ++
  family ["instrprof.value.profile"] .void [bytePtr, .int 64, .int 64, .int 32, .int 32]
    [.noUnwind] ++
  family ["xray.customevent"] .void [bytePtr, .int 32] [.noUnwind, .writeOnly]
    [(0, [.noCapture, .readOnly])] ++
  family ["xray.typedevent"] .void [.int 16, bytePtr, .int 32] [.noUnwind, .writeOnly]
    [(1, [.noCapture, .readOnly])] ++
  family ["type.test"] (.int 1) [bytePtr, .foreign] speculative ++
  family ["type.checked.load"] .foreign [bytePtr, .int 32, .foreign] constant ++
  family ["preserve.array.access.index", "preserve.struct.access.index"]
    anyPtr [anyPtr, .int 32, .int 32] constant [immediate 1, immediate 2] .never ++
  family ["preserve.union.access.index"] anyPtr [anyPtr, .int 32] constant [immediate 1]

def collection : List Intrinsic :=
  family ["gcroot"] .void [bytePtrPtr, bytePtr] [.noUnwind] [] .never ++
  family ["gcread"] bytePtr [bytePtr, bytePtrPtr] [.argMemOnly, .noUnwind, .readOnly] [] .never ++
  family ["gcwrite"] .void [bytePtr, bytePtr, bytePtrPtr] [.argMemOnly, .noUnwind]
    [(1, [.noCapture]), (2, [.noCapture])] .never ++
  family ["experimental.gc.statepoint"] .foreign
    [.int 64, .int 32, anyPtr, .int 32, .int 32, .foreign] []
    [immediate 0, immediate 1, immediate 3, immediate 4] ++
  family ["experimental.gc.result"] (.free .anything) [.foreign] [.noUnwind, .readNone] ++
  family ["experimental.gc.relocate"] (.free .anything) [.foreign, .int 32, .int 32]
    [.noUnwind, .readNone] [immediate 1, immediate 2] ++
  family ["experimental.gc.get.pointer.base"] anyPtr [anyPtr] constant
    [(0, [.noCapture, .readNone])] ++
  family ["experimental.gc.get.pointer.offset"] (.int 64) [anyPtr] constant
    [(0, [.noCapture, .readNone])]

def references : List Intrinsic :=
  family ["objc.autorelease", "objc.autoreleaseReturnValue", "objc.retain",
      "objc.retainAutorelease", "objc.retainAutoreleaseReturnValue", "objc.retain.autorelease",
      "objc.retainedObject", "objc.unretainedObject", "objc.unretainedPointer"]
    bytePtr [bytePtr] [.noUnwind] [(0, [.returned])] ++
  family ["objc.retainAutoreleasedReturnValue", "objc.retainBlock",
      "objc.unsafeClaimAutoreleasedReturnValue"]
    bytePtr [bytePtr] [.noUnwind] ++
  family ["objc.autoreleasePoolPop", "objc.release"] .void [bytePtr] [.noUnwind] ++
  family ["objc.autoreleasePoolPush"] bytePtr [] [.noUnwind] ++
  family ["objc.copyWeak", "objc.moveWeak", "objc.arc.annotation.topdown.bbstart",
      "objc.arc.annotation.topdown.bbend", "objc.arc.annotation.bottomup.bbstart",
      "objc.arc.annotation.bottomup.bbend"]
    .void [bytePtrPtr, bytePtrPtr] [.noUnwind] ++
  family ["objc.destroyWeak"] .void [bytePtrPtr] [.noUnwind] ++
  family ["objc.initWeak", "objc.storeWeak"] bytePtr [bytePtrPtr, bytePtr] [.noUnwind] ++
  family ["objc.loadWeak", "objc.loadWeakRetained"] bytePtr [bytePtrPtr] [.noUnwind] ++
  family ["objc.storeStrong"] .void [bytePtrPtr, bytePtr] [.noUnwind] ++
  family ["objc.sync.enter", "objc.sync.exit"] (.int 32) [bytePtr] [.noUnwind] ++
  family ["objc.clang.arc.use"] .void [.foreign] [.noUnwind] ++
  family ["objc.clang.arc.noop.use"] .void [.foreign] hidden

def coroutines : List Intrinsic :=
  family ["coro.id"] .foreign [.int 32, bytePtr, bytePtr, bytePtr]
    [.argMemOnly, .noUnwind, .readOnly] [(1, [.readNone]), (2, [.noCapture, .readOnly])] ++
  family ["coro.id.retcon", "coro.id.retcon.once"]
    .foreign [.int 32, .int 32, bytePtr, bytePtr, bytePtr, bytePtr] [.noUnwind] ++
  family ["coro.id.async"] .foreign [.int 32, .int 32, .int 32, bytePtr] [.noUnwind] ++
  family ["coro.alloc"] (.int 1) [.foreign] [.noUnwind] ++
  family ["coro.async.context.alloc"] bytePtr [bytePtr, bytePtr] [.noUnwind] ++
  family ["coro.async.context.dealloc"] .void [bytePtr] [.noUnwind] ++
  family ["coro.async.resume"] bytePtr [] [.noMerge, .noUnwind] ++
  family ["coro.async.size.replace"] .void [bytePtr, bytePtr] [.noUnwind] ++
  family ["coro.suspend.async"] (.free .anything) [.int 32, bytePtr, bytePtr, .foreign]
    [.noMerge, .noUnwind] ++
  family ["coro.prepare.async", "coro.prepare.retcon"] bytePtr [bytePtr] [.noUnwind, .readNone] ++
  family ["coro.begin"] bytePtr [.foreign, bytePtr] [.noUnwind] [(1, [.writeOnly])] ++
  family ["coro.free"] bytePtr [.foreign, bytePtr] [.argMemOnly, .noUnwind, .readOnly]
    [(1, [.noCapture, .readOnly])] ++
  family ["coro.end"] (.int 1) [bytePtr, .int 1] [.noUnwind] ++
  family ["coro.end.async"] (.int 1) [bytePtr, .int 1, .foreign] [.noUnwind] ++
  family ["coro.frame", "coro.noop"] bytePtr [] [.noUnwind, .readNone] ++
  family ["coro.size"] anyInt [] [.noUnwind, .readNone] ++
  family ["coro.save"] .foreign [bytePtr] [.noMerge, .noUnwind] ++
  family ["coro.suspend"] (.int 8) [.foreign, .int 1] [.noUnwind] ++
  family ["coro.suspend.retcon"] (.free .anything) [.foreign] [.noUnwind] ++
  family ["coro.alloca.alloc"] .foreign [anyInt, .int 32] [.noUnwind] ++
  family ["coro.alloca.get"] bytePtr [.foreign] [.noUnwind] ++
  family ["coro.alloca.free"] .void [.foreign] [.noUnwind] ++
  family ["coro.resume", "coro.destroy"] .void [bytePtr] [] ++
  family ["coro.done"] (.int 1) [bytePtr] [.argMemOnly, .noUnwind]
    [(0, [.noCapture, .readOnly])] ++
  family ["coro.promise"] bytePtr [bytePtr, .int 32, .int 1] [.noUnwind, .readNone]
    [(0, [.noCapture])] ++
  family ["coro.subfn.addr"] bytePtr [bytePtr, .int 8] [.argMemOnly, .noUnwind, .readOnly]
    [(0, [.noCapture, .readOnly])]

/-- Vectors and matrices. No declaration has their types. -/
def vectors : List Intrinsic :=
  family ["vector.reduce.add", "vector.reduce.mul", "vector.reduce.and", "vector.reduce.or",
      "vector.reduce.xor", "vector.reduce.smax", "vector.reduce.smin", "vector.reduce.umax",
      "vector.reduce.umin", "vector.reduce.fmax", "vector.reduce.fmin"]
    .foreign [anyVector] constant ++
  family ["vector.reduce.fadd", "vector.reduce.fmul"] .foreign [.foreign, anyVector] constant ++
  family ["masked.load"] anyVector [anyPtr, .int 32, .foreign, .foreign]
    (.argMemOnly :: .readOnly :: calm) [immediate 1] ++
  family ["masked.store"] .void [anyVector, anyPtr, .int 32, .foreign]
    (.argMemOnly :: .writeOnly :: calm) [immediate 2] ++
  family ["masked.gather"] anyVector [anyVector, .int 32, .foreign, .foreign]
    (.readOnly :: calm) [immediate 1] ++
  family ["masked.scatter"] .void [anyVector, anyVector, .int 32, .foreign]
    (.writeOnly :: calm) [immediate 2] ++
  family ["masked.expandload"] anyVector [.foreign, .foreign, .foreign] (.readOnly :: calm) ++
  family ["masked.compressstore"] .void [anyVector, .foreign, .foreign]
    (.argMemOnly :: .writeOnly :: calm) ++
  family ["matrix.transpose"] anyVector [.foreign, .int 32, .int 32] speculative
    [immediate 1, immediate 2] ++
  family ["matrix.multiply"] anyVector [anyVector, anyVector, .int 32, .int 32, .int 32] speculative
    [immediate 2, immediate 3, immediate 4] ++
  family ["matrix.column.major.load"] anyVector [.foreign, anyInt, .int 1, .int 32, .int 32]
    (.argMemOnly :: .readOnly :: calm)
    [(0, [.noCapture]), immediate 2, immediate 3, immediate 4] ++
  family ["matrix.column.major.store"]
    .void [anyVector, .foreign, anyInt, .int 1, .int 32, .int 32]
    (.argMemOnly :: .writeOnly :: calm)
    [(1, [.noCapture, .writeOnly]), immediate 3, immediate 4, immediate 5] ++
  family ["get.active.lane.mask"] anyVector [anyInt, .foreign] constant ++
  family ["experimental.stepvector"] anyVector [] constant ++
  family ["experimental.vector.insert"] anyVector [.foreign, anyVector, .int 64] constant
    [immediate 2] ++
  family ["experimental.vector.extract"] anyVector [anyVector, .int 64] constant [immediate 1] ++
  family ["experimental.vector.reverse"] anyVector [.foreign] constant ++
  family ["experimental.vector.splice"] anyVector [.foreign, .foreign, .int 32] constant
    [immediate 2]

def lanes : List Intrinsic :=
  family ["vp.add", "vp.sub", "vp.mul", "vp.ashr", "vp.lshr", "vp.shl", "vp.or", "vp.and", "vp.xor",
      "vp.fadd", "vp.fsub", "vp.fmul", "vp.fdiv", "vp.frem"]
    anyVector [.foreign, .foreign, .foreign, .int 32] speculative ++
  family ["vp.sdiv", "vp.udiv", "vp.srem", "vp.urem"]
    anyVector [.foreign, .foreign, .foreign, .int 32] constant ++
  family ["vp.reduce.add", "vp.reduce.mul", "vp.reduce.and", "vp.reduce.or", "vp.reduce.xor",
      "vp.reduce.smax", "vp.reduce.smin", "vp.reduce.umax", "vp.reduce.umin", "vp.reduce.fmax",
      "vp.reduce.fmin", "vp.reduce.fadd", "vp.reduce.fmul"]
    .foreign [.foreign, anyVector, .foreign, .int 32] speculative ++
  family ["vp.select", "vp.merge"] anyVector [.foreign, .foreign, .foreign, .int 32] speculative ++
  family ["experimental.vp.splice"]
    anyVector [.foreign, .foreign, .int 32, .foreign, .int 32, .int 32] constant [immediate 2] ++
  family ["vp.load"] anyVector [anyPtr, .foreign, .int 32] (.argMemOnly :: .readOnly :: calm)
    [(0, [.noCapture])] ++
  family ["vp.store"] .void [anyVector, anyPtr, .foreign, .int 32]
    (.argMemOnly :: .writeOnly :: calm) [(1, [.noCapture])] ++
  family ["vp.gather"] anyVector [anyVector, .foreign, .int 32] (.readOnly :: calm) ++
  family ["vp.scatter"] .void [anyVector, anyVector, .foreign, .int 32] (.writeOnly :: calm)

def all : List Intrinsic :=
  floats ++ strictFloats ++ integers ++ blocks ++ memory ++ stack ++ control ++ exceptions ++
    annotations ++ collection ++ references ++ coroutines ++ vectors ++ lanes

/-- The parts of a name that end before a point, the shortest first. -/
def stems (seen : List Char) : List Char → List (List Char)
  | [] => []
  | c :: cs =>
    if c = '.' then seen.reverse :: stems (c :: seen) cs else stems (c :: seen) cs

/-- The intrinsic of a name. Of the name and its parts that end before a point, the longest counts
with which any intrinsic begins: it must be one, and the whole name unless types are free. -/
def find? (name : String) : Option Intrinsic :=
  let known := all.map fun i => (i.name.toList, i)
  let stem := (name.toList :: (stems [] name.toList).reverse).find? fun s =>
    known.any fun (n, _) => s.isPrefixOf n
  stem.bind fun s =>
    (List.lookup s known).filter fun i => s = name.toList || i.isOverloaded

end Intrinsic

end QuantumIR
