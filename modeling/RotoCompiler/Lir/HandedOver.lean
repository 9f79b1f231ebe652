import RotoCompiler.Lir.ItemCalls

/-!
# What calls hand over

The instructions that lowering is sure to emit: the calls themselves, with the variables that
they hand over as they are.
-/

namespace Roto.Lir
open Mir
open Ast (BinOp)

variable {env : LowerEnv} {rt : Rt} {s s' : Lowerer}

end Roto.Lir
