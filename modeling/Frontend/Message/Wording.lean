import Frontend.Message.Key

/-!
# English wording

The English template of every message. `%s`, `%d` and `%c` stand for a text, a number and a
character; `%[2]s` stands for the second argument.
-/

namespace Frontend.MessageKey

def english : MessageKey → String
  | titleSyntax => "Syntax Error"
  | titleParser => "Parser Error"
  | titleTypeMismatch => "Type Mismatch Error"
  | titleSymbolNotFound => "Symbol Not Found Error"
  | titleSymbolDuplicate => "Symbol Duplicate Error"
  | titleScope => "Scope Error"
  | titleArgument => "Argument Error"
  | titleSemantic => "Semantic Error"
  | titleRecursiveImport => "Recursive Import Error"
  | titleExtension => "Extension Error"
  | titleFileNotFound => "File Not Found Error"
  | illegalChar => "illegal character '%c'"
  | illegalEscape => "illegal escape character '\\%c'"
  | illegalOperator => "illegal operator '%s'"
  | unclosedQuote => "unclosed quote opened at %s"
  | unclosedComment => "unclosed block comment opened at %s"
  | invalidIdentifier => "invalid identifier '%s'"
  | scannedSoFar => "scanned so far: %s"
  | unexpectedTokenType => "unexpected token %s, expected %s"
  | cannotStart => "no expression can start with %s"
  | cannotFollow => "%s cannot follow an expression here"
  | unclosedExpression => "'%s' opened at %s is not closed, found %s"
  | expectedExpression => "expected an expression, found %s"
  | invalidVarTarget => "var expects an identifier or an assignment, found %s"
  | invalidFunHead => "invalid function head: %s"
  | invalidParameter => "invalid parameter: %s"
  | parameterOrder => "parameter '%s' cannot follow a variadic parameter"
  | invalidClassHead => "class expects a name, found %s"
  | expectedLabel => "expected a label after ':', found %s"
  | invalidDescriptor => "descriptor groups are only allowed on func and funi labels, found '%s'"
  | invalidAssignTarget => "cannot assign to %s"
  | expectedBlock => "expected '\x7b' to start a block, found %s"
  | expectedCondition => "'%s' expects a parenthesized condition"
  | branchWithoutIf => "'%s' without a preceding if"
  | forHeadShape => "for loop head must be (init; condition; update), found %d part(s)"
  | invalidDictEntry => "dictionary entries must be key: value pairs"
  | invalidImport => "import expects a string path"
  | invalidArgument => "invalid argument: %s"
  | invalidIncrementTarget => "'%s' needs a variable, found %s"
  | tooManyErrors => "too many errors, parsing stopped"
  | symbolNotFound => "symbol '%s' not found"
  | symbolDuplicate => "symbol '%s' is already defined in this scope"
  | customTypeNotFound => "type '%s' is not registered"
  | scopeCapture => "'%s' is a local of an enclosing function and cannot be captured"
  | scopeUnderflow => "cannot exit the global scope"
  | notAClass => "'%s' is not a class"
  | inheritanceCycle => "class '%s' inherits from itself"
  | declaredNotDefined => "'%s' is declared but never defined"
  | declarationMismatch => "definition of '%s' does not match its declaration"
  | redefinition => "'%s' is already defined"
  | typeMismatch => "type mismatch: expected %s, found %s"
  | returnMismatch => "function '%s' returns %s, found %s"
  | missingReturn => "function '%s' declares return type %s but never returns"
  | invalidOperand => "operator '%s' cannot be applied to %s"
  | notCallable => "'%s' of type %s is not callable"
  | notIndexable => "a value of type %s cannot be indexed"
  | attributeOnValue => "cannot read attribute '%s' of a value of type %s"
  | missingArgument => "missing argument for parameter '%s' of '%s'"
  | tooManyArguments => "'%s' accepts %d positional argument(s), %d given"
  | unknownKeyword => "'%s' has no parameter named '%s'"
  | duplicateArgument => "parameter '%s' of '%s' is bound more than once"
  | noMatchingConstructor => "no constructor of class '%s' matches the arguments"
  | candidate => "candidate %s: %s"
  | defaultNotLiteral => "default value of parameter '%s' must be a literal"
  | breakOutside => "'break' outside of a loop"
  | continueOutside => "'continue' outside of a loop"
  | returnOutside => "'return' outside of a function"
  | thisOutside => "'this' outside of a method"
  | constAssign => "cannot assign to const '%s'"
  | constWithoutValue => "const '%s' needs an initial value"
  | labelNotAdmitted => "label '%s' is not allowed on %s"
  | duplicateMark => "%s label '%s' conflicts with '%s'"
  | duplicateTypeLabel => "only one type label is allowed, found '%s' and '%s'"
  | overwriteRequired => "method '%s' hides a method of base class '%s'"
  | overwriteNothing => "method '%s' is marked overwrite but no base class defines it"
  | memberNotFound => "class '%s' has no member '%s'"
  | permissionDenied => "member '%s' of class '%s' is %s"
  | staticAccess => "instance member '%s' cannot be reached through class '%s'"
  | unsupported => "%s is not supported here"
  | constructorReturn => "a constructor cannot return a value"
  | builtinArguments => "builtin '%s' expects %s"
  | variadicAtCall => "argument unpacking with '%s' is not supported at call sites"
  | recursiveImport => "recursive import of '%s'"
  | fileNotFound => "file '%s' not found"
  | extensionLoad => "cannot load extension '%s': %s"
  | extensionCall => "extension function '%s' produced no code"
  | infoDeclaredAt => "'%s' declared at %s"
  | infoImportChain => "import chain: %s"
  | infoExpected => "expected: %s"
  | infoFound => "found: %s"
  | hintDeclareFirst => "declare '%s' with var before using it"
  | hintDidYouMean => "did you mean '%s'?"
  | hintConvertValue => "convert the value explicitly, e.g. tostr(x), or declare the target as any"
  | hintPassArgument => "pass a value for '%s' or give the parameter a default"
  | hintBreakImport => "move the shared code into a file that neither side imports"
  | hintExtensionAbi => "the library must export kite_ext_load, kite_ext_unload, kite_ext_functions and kite_ext_free_functions"
  | hintDefineClass => "define or declare class '%s' before using it as a type"
  | hintMakePublic => "access it from inside '%s' or declare it public"
  | hintMarkOverwrite => "add the overwrite label: fun %s(...): overwrite"
  | hintAddReturn => "add a return statement or declare the return type as any"
  | hintRenameShadowing => "pass the value as a parameter instead"
  | hintParenthesizeKey => "wrap identifier keys in parentheses: \x7b(key): value\x7d"

/-! ## Chinese wording

The Chinese template of every message. `%s`, `%d` and `%c` stand for a text, a number and a
character; `%[2]s` stands for the second argument. -/

def chinese : MessageKey → String
  | titleSyntax => "语法错误"
  | titleParser => "解析错误"
  | titleTypeMismatch => "类型不匹配"
  | titleSymbolNotFound => "符号未找到"
  | titleSymbolDuplicate => "符号重复"
  | titleScope => "作用域错误"
  | titleArgument => "参数错误"
  | titleSemantic => "语义错误"
  | titleRecursiveImport => "循环导入"
  | titleExtension => "扩展错误"
  | titleFileNotFound => "文件不存在"
  | illegalChar => "非法字符 '%c'"
  | illegalEscape => "非法转义字符 '\\%c'"
  | illegalOperator => "非法运算符 '%s'"
  | unclosedQuote => "引号未闭合，起始于 %s"
  | unclosedComment => "块注释未闭合，起始于 %s"
  | invalidIdentifier => "无效标识符 '%s'"
  | scannedSoFar => "已扫描: %s"
  | unexpectedTokenType => "意外的 token %s，期望 %s"
  | cannotStart => "表达式不能以 %s 开头"
  | cannotFollow => "%s 不能出现在表达式之后"
  | unclosedExpression => "起始于 %[2]s 的 '%[1]s' 未闭合，遇到 %[3]s"
  | expectedExpression => "期望表达式，遇到 %s"
  | invalidVarTarget => "var 需要标识符或赋值表达式，遇到 %s"
  | invalidFunHead => "无效的函数头: %s"
  | invalidParameter => "无效的参数: %s"
  | parameterOrder => "参数 '%s' 不能位于可变参数之后"
  | invalidClassHead => "class 需要类名，遇到 %s"
  | expectedLabel => "':' 之后需要标签，遇到 %s"
  | invalidDescriptor => "只有 func 和 funi 标签可以带描述组，遇到 '%s'"
  | invalidAssignTarget => "不能对 %s 赋值"
  | expectedBlock => "期望 '\x7b' 开始代码块，遇到 %s"
  | expectedCondition => "'%s' 需要括号包裹的条件"
  | branchWithoutIf => "'%s' 之前缺少 if"
  | forHeadShape => "for 循环头必须是 (初始化; 条件; 更新)，实际有 %d 部分"
  | invalidDictEntry => "字典条目必须是 键: 值 形式"
  | invalidImport => "import 需要字符串路径"
  | invalidArgument => "无效的实参: %s"
  | invalidIncrementTarget => "'%s' 需要变量，遇到 %s"
  | tooManyErrors => "错误过多，停止解析"
  | symbolNotFound => "符号 '%s' 未找到"
  | symbolDuplicate => "符号 '%s' 已在当前作用域定义"
  | customTypeNotFound => "类型 '%s' 未注册"
  | scopeCapture => "'%s' 是外层函数的局部变量，不能被捕获"
  | scopeUnderflow => "不能退出全局作用域"
  | notAClass => "'%s' 不是类"
  | inheritanceCycle => "类 '%s' 继承自身"
  | declaredNotDefined => "'%s' 已声明但从未定义"
  | declarationMismatch => "'%s' 的定义与声明不一致"
  | redefinition => "'%s' 已经定义"
  | typeMismatch => "类型不匹配: 期望 %s，实际 %s"
  | returnMismatch => "函数 '%s' 返回 %s，实际 %s"
  | missingReturn => "函数 '%s' 声明返回类型 %s 但没有返回"
  | invalidOperand => "运算符 '%s' 不能用于 %s"
  | notCallable => "类型为 %[2]s 的 '%[1]s' 不可调用"
  | notIndexable => "类型 %s 的值不能索引"
  | attributeOnValue => "不能读取类型 %[2]s 的值的属性 '%[1]s'"
  | missingArgument => "缺少 '%[2]s' 的参数 '%[1]s'"
  | tooManyArguments => "'%s' 接受 %d 个位置参数，传入了 %d 个"
  | unknownKeyword => "'%s' 没有名为 '%s' 的参数"
  | duplicateArgument => "'%[2]s' 的参数 '%[1]s' 被重复绑定"
  | noMatchingConstructor => "类 '%s' 没有与实参匹配的构造函数"
  | candidate => "候选 %s: %s"
  | defaultNotLiteral => "参数 '%s' 的默认值必须是字面量"
  | breakOutside => "'break' 不在循环内"
  | continueOutside => "'continue' 不在循环内"
  | returnOutside => "'return' 不在函数内"
  | thisOutside => "'this' 不在方法内"
  | constAssign => "不能对常量 '%s' 赋值"
  | constWithoutValue => "常量 '%s' 需要初始值"
  | labelNotAdmitted => "标签 '%s' 不能用于 %s"
  | duplicateMark => "%s 标签 '%s' 与 '%s' 冲突"
  | duplicateTypeLabel => "只允许一个类型标签，遇到 '%s' 和 '%s'"
  | overwriteRequired => "方法 '%s' 覆盖了基类 '%s' 的方法"
  | overwriteNothing => "方法 '%s' 标记为 overwrite 但基类中没有同名方法"
  | memberNotFound => "类 '%s' 没有成员 '%s'"
  | permissionDenied => "类 '%[2]s' 的成员 '%[1]s' 是 %[3]s 的"
  | staticAccess => "实例成员 '%s' 不能通过类 '%s' 访问"
  | unsupported => "此处不支持 %s"
  | constructorReturn => "构造函数不能返回值"
  | builtinArguments => "内置函数 '%s' 需要 %s"
  | variadicAtCall => "调用处不支持使用 '%s' 展开参数"
  | recursiveImport => "循环导入 '%s'"
  | fileNotFound => "文件 '%s' 不存在"
  | extensionLoad => "无法加载扩展 '%s': %s"
  | extensionCall => "扩展函数 '%s' 没有生成代码"
  | infoDeclaredAt => "'%s' 声明于 %s"
  | infoImportChain => "导入链: %s"
  | infoExpected => "期望: %s"
  | infoFound => "实际: %s"
  | hintDeclareFirst => "使用前先用 var 声明 '%s'"
  | hintDidYouMean => "你是否想使用 '%s'?"
  | hintConvertValue => "显式转换值，例如 tostr(x)，或将目标声明为 any"
  | hintPassArgument => "为 '%s' 传入实参，或给参数设置默认值"
  | hintBreakImport => "把共享代码移到双方都不导入的文件中"
  | hintExtensionAbi => "动态库必须导出 kite_ext_load、kite_ext_unload、kite_ext_functions 和 kite_ext_free_functions"
  | hintDefineClass => "在作为类型使用前先定义或声明类 '%s'"
  | hintMakePublic => "在 '%s' 内部访问，或将其声明为 public"
  | hintMarkOverwrite => "添加 overwrite 标签: fun %s(...): overwrite"
  | hintAddReturn => "添加 return 语句，或将返回类型声明为 any"
  | hintRenameShadowing => "改为通过参数传入该值"
  | hintParenthesizeKey => "用括号包裹标识符键: \x7b(key): value\x7d"

end Frontend.MessageKey
