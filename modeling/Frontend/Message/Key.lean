/-!
# Message keys

Every sentence the program can say has a key. A key has a dotted name, under which its wording is
looked up from outside, and one template for each language.
-/

namespace Frontend

/-- The sentences of diagnostics, without their wording. -/
inductive MessageKey where
  -- Titles of diagnostics.
  | titleSyntax
  | titleParser
  | titleTypeMismatch
  | titleSymbolNotFound
  | titleSymbolDuplicate
  | titleScope
  | titleArgument
  | titleSemantic
  | titleRecursiveImport
  | titleExtension
  | titleFileNotFound
  -- Reading letters into tokens.
  | illegalChar
  | illegalEscape
  | illegalOperator
  | unclosedQuote
  | unclosedComment
  | invalidIdentifier
  | scannedSoFar
  -- Reading tokens into trees.
  | unexpectedTokenType
  | cannotStart
  | cannotFollow
  | unclosedExpression
  | expectedExpression
  | invalidVarTarget
  | invalidFunHead
  | invalidParameter
  | parameterOrder
  | invalidClassHead
  | expectedLabel
  | invalidDescriptor
  | invalidAssignTarget
  | expectedBlock
  | expectedCondition
  | branchWithoutIf
  | forHeadShape
  | invalidDictEntry
  | invalidImport
  | invalidArgument
  | invalidIncrementTarget
  | tooManyErrors
  -- Checking and lowering.
  | symbolNotFound
  | symbolDuplicate
  | customTypeNotFound
  | scopeCapture
  | scopeUnderflow
  | notAClass
  | inheritanceCycle
  | declaredNotDefined
  | declarationMismatch
  | redefinition
  | typeMismatch
  | returnMismatch
  | missingReturn
  | invalidOperand
  | notCallable
  | notIndexable
  | attributeOnValue
  | missingArgument
  | tooManyArguments
  | unknownKeyword
  | duplicateArgument
  | noMatchingConstructor
  | candidate
  | defaultNotLiteral
  | breakOutside
  | continueOutside
  | returnOutside
  | thisOutside
  | constAssign
  | constWithoutValue
  | labelNotAdmitted
  | duplicateMark
  | duplicateTypeLabel
  | overwriteRequired
  | overwriteNothing
  | memberNotFound
  | permissionDenied
  | staticAccess
  | unsupported
  | constructorReturn
  | builtinArguments
  | variadicAtCall
  | recursiveImport
  | fileNotFound
  | extensionLoad
  | extensionCall
  -- Further lines of a diagnostic.
  | infoDeclaredAt
  | infoImportChain
  | infoExpected
  | infoFound
  -- Advice.
  | hintDeclareFirst
  | hintDidYouMean
  | hintConvertValue
  | hintPassArgument
  | hintBreakImport
  | hintExtensionAbi
  | hintDefineClass
  | hintMakePublic
  | hintMarkOverwrite
  | hintAddReturn
  | hintRenameShadowing
  | hintParenthesizeKey
  deriving DecidableEq, Repr, Inhabited

namespace MessageKey

def name : MessageKey → String
  | titleSyntax => "title.syntax"
  | titleParser => "title.parser"
  | titleTypeMismatch => "title.type_mismatch"
  | titleSymbolNotFound => "title.symbol_not_found"
  | titleSymbolDuplicate => "title.symbol_duplicate"
  | titleScope => "title.scope"
  | titleArgument => "title.argument"
  | titleSemantic => "title.semantic"
  | titleRecursiveImport => "title.recursive_import"
  | titleExtension => "title.extension"
  | titleFileNotFound => "title.file_not_found"
  | illegalChar => "lexer.illegal_char"
  | illegalEscape => "lexer.illegal_escape"
  | illegalOperator => "lexer.illegal_operator"
  | unclosedQuote => "lexer.unclosed_quote"
  | unclosedComment => "lexer.unclosed_comment"
  | invalidIdentifier => "lexer.invalid_identifier"
  | scannedSoFar => "lexer.scanned_so_far"
  | unexpectedTokenType => "parser.unexpected_token_type"
  | cannotStart => "parser.prefix_builder_not_found"
  | cannotFollow => "parser.infix_builder_not_found"
  | unclosedExpression => "parser.unclosed_expression"
  | expectedExpression => "parser.expected_expression"
  | invalidVarTarget => "parser.invalid_var_target"
  | invalidFunHead => "parser.invalid_fun_head"
  | invalidParameter => "parser.invalid_parameter"
  | parameterOrder => "parser.parameter_order"
  | invalidClassHead => "parser.invalid_class_head"
  | expectedLabel => "parser.expected_label"
  | invalidDescriptor => "parser.invalid_descriptor"
  | invalidAssignTarget => "parser.invalid_assign_target"
  | expectedBlock => "parser.expected_block"
  | expectedCondition => "parser.expected_condition"
  | branchWithoutIf => "parser.branch_without_if"
  | forHeadShape => "parser.for_head_shape"
  | invalidDictEntry => "parser.invalid_dict_entry"
  | invalidImport => "parser.invalid_import"
  | invalidArgument => "parser.invalid_argument"
  | invalidIncrementTarget => "parser.invalid_increment_target"
  | tooManyErrors => "parser.too_many_errors"
  | symbolNotFound => "compiler.symbol_not_found"
  | symbolDuplicate => "compiler.symbol_duplicate"
  | customTypeNotFound => "compiler.custom_type_not_found"
  | scopeCapture => "compiler.scope_capture"
  | scopeUnderflow => "compiler.scope_underflow"
  | notAClass => "compiler.not_a_class"
  | inheritanceCycle => "compiler.inheritance_cycle"
  | declaredNotDefined => "compiler.declared_not_defined"
  | declarationMismatch => "compiler.declaration_mismatch"
  | redefinition => "compiler.redefinition"
  | typeMismatch => "compiler.type_mismatch"
  | returnMismatch => "compiler.return_mismatch"
  | missingReturn => "compiler.missing_return"
  | invalidOperand => "compiler.invalid_operand"
  | notCallable => "compiler.not_callable"
  | notIndexable => "compiler.not_indexable"
  | attributeOnValue => "compiler.attribute_on_value"
  | missingArgument => "compiler.missing_argument"
  | tooManyArguments => "compiler.too_many_arguments"
  | unknownKeyword => "compiler.unknown_keyword"
  | duplicateArgument => "compiler.duplicate_argument"
  | noMatchingConstructor => "compiler.no_matching_constructor"
  | candidate => "compiler.candidate"
  | defaultNotLiteral => "compiler.default_not_literal"
  | breakOutside => "compiler.break_outside"
  | continueOutside => "compiler.continue_outside"
  | returnOutside => "compiler.return_outside"
  | thisOutside => "compiler.this_outside"
  | constAssign => "compiler.const_assign"
  | constWithoutValue => "compiler.const_without_value"
  | labelNotAdmitted => "compiler.label_not_admitted"
  | duplicateMark => "compiler.duplicate_mark"
  | duplicateTypeLabel => "compiler.duplicate_type_label"
  | overwriteRequired => "compiler.overwrite_required"
  | overwriteNothing => "compiler.overwrite_nothing"
  | memberNotFound => "compiler.member_not_found"
  | permissionDenied => "compiler.permission_denied"
  | staticAccess => "compiler.static_access"
  | unsupported => "compiler.unsupported"
  | constructorReturn => "compiler.constructor_return"
  | builtinArguments => "compiler.builtin_arguments"
  | variadicAtCall => "compiler.variadic_at_call"
  | recursiveImport => "compiler.recursive_import"
  | fileNotFound => "compiler.file_not_found"
  | extensionLoad => "compiler.extension_load"
  | extensionCall => "compiler.extension_call"
  | infoDeclaredAt => "info.declared_at"
  | infoImportChain => "info.import_chain"
  | infoExpected => "info.expected"
  | infoFound => "info.found"
  | hintDeclareFirst => "hint.declare_first"
  | hintDidYouMean => "hint.did_you_mean"
  | hintConvertValue => "hint.convert_value"
  | hintPassArgument => "hint.pass_argument"
  | hintBreakImport => "hint.break_import"
  | hintExtensionAbi => "hint.extension_abi"
  | hintDefineClass => "hint.define_class"
  | hintMakePublic => "hint.make_public"
  | hintMarkOverwrite => "hint.mark_overwrite"
  | hintAddReturn => "hint.add_return"
  | hintRenameShadowing => "hint.rename_shadowing"
  | hintParenthesizeKey => "hint.parenthesize_key"

def all : List MessageKey := [
  .titleSyntax, .titleParser, .titleTypeMismatch, .titleSymbolNotFound, .titleSymbolDuplicate,
  .titleScope, .titleArgument, .titleSemantic, .titleRecursiveImport, .titleExtension,
  .titleFileNotFound, .illegalChar, .illegalEscape, .illegalOperator, .unclosedQuote,
  .unclosedComment, .invalidIdentifier, .scannedSoFar, .unexpectedTokenType,
  .cannotStart, .cannotFollow, .unclosedExpression, .expectedExpression,
  .invalidVarTarget, .invalidFunHead, .invalidParameter, .parameterOrder, .invalidClassHead,
  .expectedLabel, .invalidDescriptor, .invalidAssignTarget, .expectedBlock, .expectedCondition,
  .branchWithoutIf, .forHeadShape, .invalidDictEntry, .invalidImport, .invalidArgument,
  .invalidIncrementTarget, .tooManyErrors, .symbolNotFound, .symbolDuplicate,
  .customTypeNotFound, .scopeCapture, .scopeUnderflow, .notAClass, .inheritanceCycle,
  .declaredNotDefined, .declarationMismatch, .redefinition, .typeMismatch, .returnMismatch,
  .missingReturn, .invalidOperand, .notCallable, .notIndexable, .attributeOnValue,
  .missingArgument, .tooManyArguments, .unknownKeyword, .duplicateArgument,
  .noMatchingConstructor, .candidate, .defaultNotLiteral, .breakOutside, .continueOutside,
  .returnOutside, .thisOutside, .constAssign, .constWithoutValue, .labelNotAdmitted,
  .duplicateMark, .duplicateTypeLabel, .overwriteRequired, .overwriteNothing, .memberNotFound,
  .permissionDenied, .staticAccess, .unsupported, .constructorReturn, .builtinArguments,
  .variadicAtCall, .recursiveImport, .fileNotFound, .extensionLoad, .extensionCall,
  .infoDeclaredAt, .infoImportChain, .infoExpected, .infoFound, .hintDeclareFirst,
  .hintDidYouMean, .hintConvertValue, .hintPassArgument, .hintBreakImport, .hintExtensionAbi,
  .hintDefineClass, .hintMakePublic, .hintMarkOverwrite, .hintAddReturn, .hintRenameShadowing,
  .hintParenthesizeKey]

def ofName? (s : String) : Option MessageKey := all.find? (·.name == s)

end MessageKey

end Frontend
